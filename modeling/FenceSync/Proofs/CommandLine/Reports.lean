import FenceSync.CommandLine.Run
import FenceSync.Proofs.Files.Alike
import Mathlib.Data.List.Basic
/-!
# What a run reports and writes

A run reads its documents in order, each as the writes before it left it, up to the first that
cannot be read. The documents written are those whose report tells of a change, and writing never
fails, since it puts a text in the place of a text.
-/
namespace FenceSync

def Event.write? : Event → Option (Path × Text)
  | .write document text => some (document, text)
  | _ => none

theorem Transcript.writes_eq (t : Transcript) : t.writes = t.events.filterMap Event.write? :=
  rfl

namespace Reporter

variable (r : Reporter)

@[simp]
theorem filterMap_write?_log (isError : Bool) (line : Text) :
    (r.log isError line).filterMap Event.write? = [] := by
  rw [log]
  split
  · rfl
  · split <;> rfl

@[simp]
theorem filterMap_write?_machine (line : Text) : (r.machine line).filterMap Event.write? = [] := by
  rw [machine]
  split <;> rfl

@[simp]
theorem filterMap_write?_block (rel : Text) (b : Block) :
    (r.block rel b).filterMap Event.write? = [] := by
  rw [block, List.filterMap_append, filterMap_write?_log, List.nil_append]
  split
  · cases r.remark? rel b <;> simp
  · rfl

@[simp]
theorem filterMap_write?_difference (rel current expected : Text) :
    (r.difference rel current expected).filterMap Event.write? = [] := by
  rw [difference, List.filterMap_append, List.filterMap_map]
  simp [Event.write?, Function.comp_def]

end Reporter

namespace Run

variable (args : Arguments) (r : Reporter) (options : EmbedOptions) (root : Path)

@[simp]
theorem filterMap_write?_blockEvents (document : Path) (report : Report) :
    (blockEvents r options root document report).filterMap Event.write? = [] := by
  rw [blockEvents]
  simp only [List.filterMap_append, List.filterMap_flatMap, Reporter.filterMap_write?_log,
    Reporter.filterMap_write?_block]
  split <;> simp

@[simp]
theorem filterMap_write?_useEvents (document : Path) (source : Text) (report : Report) :
    (useEvents args r options root document source report).filterMap Event.write? =
      if writesBack options report then [(document, report.output)] else [] := by
  have hdiff : (if args.diff && report.changed then
      r.difference (shown root document) source report.output else []).filterMap Event.write? =
        [] := by
    split <;> simp
  have hstdout : (if options.mode = .stdout then
      [Event.stdout report.output] else []).filterMap Event.write? = [] := by
    split <;> rfl
  rw [useEvents, List.filterMap_append, List.filterMap_append, hdiff, hstdout, List.append_nil,
    List.append_nil]
  split <;> rfl

@[simp]
theorem filterMap_write?_closing (p : Progress) :
    (closing args r p).filterMap Event.write? = [] := by
  rw [closing, List.filterMap_append]
  split <;> split <;> simp

def written? (x : Path × Report) : Option (Path × Text) :=
  if writesBack options x.2 then some (x.1, x.2.output) else none

/-- What a document that can be read adds to a run. -/
structure Advances (p : Progress) (document : Path) (source : Text) (report : Report)
    (p' : Progress) : Prop where
  files : filesAfter options p.files document report = .ok p'.files
  alike : p.files.Alike p'.files
  events : p'.events = p.events ++ (blockEvents r options root document report ++
    useEvents args r options root document source report)
  summaries : p'.summaries = p.summaries ++ [r.documentJson (shown root document) report]
  drift : p'.drift = (p.drift || (options.mode = .verify && report.changed))

variable {args r options root} in
theorem Advances.writes {p p' : Progress} {document : Path} {source : Text} {report : Report}
    (h : Advances args r options root p document source report p') :
    p'.events.filterMap Event.write? =
      p.events.filterMap Event.write? ++ (written? options (document, report)).toList := by
  simp only [h.events, List.filterMap_append, filterMap_write?_blockEvents,
    filterMap_write?_useEvents, List.nil_append, written?]
  split <;> rfl

theorem exists_filesAfter_eq_ok {fs : FileSystem} {document : Path} {source : Text}
    (h : fs.read document = .ok source) (report : Report) :
    ∃ fs', filesAfter options fs document report = .ok fs' ∧ fs.Alike fs' := by
  rw [filesAfter]
  split
  · exact FileSystem.exists_write_eq_ok h report.output
  · exact ⟨fs, rfl, FileSystem.Alike.refl fs⟩

theorem exists_step_eq_ok {p : Progress} {document : Path} {source : Text}
    (h : p.files.read document = .ok source) :
    ∃ p', step args r options root p document = .ok p' ∧
      Advances args r options root p document source
        (Document.embed p.files options document source) p' := by
  obtain ⟨fs', hfiles, halike⟩ := exists_filesAfter_eq_ok options h
    (Document.embed p.files options document source)
  simp only [step, h, hfiles]
  exact ⟨_, rfl, hfiles, halike, List.append_assoc _ _ _, rfl, rfl⟩

/-- A run stops at a document that cannot be read, and goes on behind any other. -/
theorem steps_cons_cases (p : Progress) (document : Path) (rest : List Path) :
    (∃ cause message, p.files.read document = .error cause ∧
      steps args r options root p (document :: rest) = .error (p, message)) ∨
    ∃ source p', p.files.read document = .ok source ∧
      Advances args r options root p document source
        (Document.embed p.files options document source) p' ∧
      steps args r options root p (document :: rest) = steps args r options root p' rest := by
  cases hr : p.files.read document with
  | error cause =>
    left
    simp only [steps, step, hr]
    exact ⟨cause, _, rfl, rfl⟩
  | ok source =>
    right
    obtain ⟨p', hs, ha⟩ := exists_step_eq_ok args r options root hr
    exact ⟨source, p', rfl, ha, by rw [steps, hs]⟩

def reports (fs : FileSystem) : List Path → List (Path × Report)
  | [] => []
  | document :: rest =>
    match fs.read document with
    | .error _ => []
    | .ok source =>
      let report := Document.embed fs options document source
      (document, report) ::
        match filesAfter options fs document report with
        | .error _ => []
        | .ok fs => reports fs rest

def AllReadable (fs : FileSystem) (documents : List Path) : Prop :=
  ∀ document ∈ documents, (fs.read document).isOk = true

instance (fs : FileSystem) (documents : List Path) : Decidable (AllReadable fs documents) :=
  inferInstanceAs (Decidable (∀ document ∈ documents, (fs.read document).isOk = true))

variable {args r options root} in
theorem reports_cons_of_read_ok {p p' : Progress} {document : Path} {source : Text}
    (h : p.files.read document = .ok source)
    (ha : Advances args r options root p document source
      (Document.embed p.files options document source) p')
    (rest : List Path) :
    reports options p.files (document :: rest) =
      (document, Document.embed p.files options document source) ::
        reports options p'.files rest := by
  simp only [reports, h, ha.files]

theorem reports_singleton {document : Path} {source : Text} {fs : FileSystem}
    (h : fs.read document = .ok source) :
    reports options fs [document] = [(document, Document.embed fs options document source)] := by
  simp only [reports, h]
  cases filesAfter options fs document (Document.embed fs options document source) <;> rfl

/-- A run comes to its end if all documents can be read at its beginning. -/
theorem isOk_steps_iff (p : Progress) (documents : List Path) :
    (steps args r options root p documents).isOk = true ↔ AllReadable p.files documents := by
  induction documents generalizing p with
  | nil => simp [steps, AllReadable, Except.isOk, Except.toBool]
  | cons document rest ih =>
    rw [AllReadable, List.forall_mem_cons]
    rcases steps_cons_cases args r options root p document rest with
      ⟨cause, message, hr, hs⟩ | ⟨source, p', hr, ha, hs⟩
    · rw [hs, hr]
      simp [Except.isOk, Except.toBool]
    · simp only [hs, hr, ih, AllReadable, ha.alike.isOk_read]
      simp [Except.isOk, Except.toBool]

/-- The progress of a run, also of one that was stopped. -/
def reached : Except (Progress × Text) Progress → Progress
  | .ok p => p
  | .error (p, _) => p

/-- Processing documents changes nothing but what texts say. -/
theorem alike_steps (p : Progress) (documents : List Path) :
    p.files.Alike (reached (steps args r options root p documents)).files := by
  induction documents generalizing p with
  | nil => exact FileSystem.Alike.refl p.files
  | cons document rest ih =>
    rcases steps_cons_cases args r options root p document rest with
      ⟨cause, message, hr, hs⟩ | ⟨source, p', hr, ha, hs⟩
    · rw [hs]
      exact FileSystem.Alike.refl p.files
    · rw [hs]
      exact ha.alike.trans (ih p')

variable {args r options root} in
/-- What is taken from the events of a run is taken from those of each document. -/
theorem flatMap_steps {β : Type} {φ : Event → List β} {ψ : Path × Report → List β}
    (h : ∀ document source report, (blockEvents r options root document report ++
      useEvents args r options root document source report).flatMap φ = ψ (document, report))
    (p : Progress) (documents : List Path) :
    (reached (steps args r options root p documents)).events.flatMap φ =
      p.events.flatMap φ ++ (reports options p.files documents).flatMap ψ := by
  induction documents generalizing p with
  | nil => simp [steps, reports, reached]
  | cons document rest ih =>
    rcases steps_cons_cases args r options root p document rest with
      ⟨cause, message, hr, hs⟩ | ⟨source, p', hr, ha, hs⟩
    · simp [hs, reports, hr, reached]
    · rw [hs, ih, reports_cons_of_read_ok hr ha, ha.events, List.flatMap_append, h,
        List.flatMap_cons, List.append_assoc]

theorem filterMap_write?_steps (p : Progress) (documents : List Path) :
    (reached (steps args r options root p documents)).events.filterMap Event.write? =
      p.events.filterMap Event.write? ++
        (reports options p.files documents).filterMap (written? options) := by
  simp only [List.filterMap_eq_flatMap_toList]
  apply flatMap_steps
  intro document source report
  rw [← List.filterMap_eq_flatMap_toList, List.filterMap_append, filterMap_write?_blockEvents,
    filterMap_write?_useEvents, List.nil_append, written?]
  split <;> rfl

theorem drift_of_steps_eq_ok {p p' : Progress} {documents : List Path}
    (h : steps args r options root p documents = .ok p') :
    p'.drift = (p.drift || (options.mode = .verify &&
      (reports options p.files documents).any (·.2.changed))) := by
  induction documents generalizing p with
  | nil =>
    cases h
    simp [reports]
  | cons document rest ih =>
    rcases steps_cons_cases args r options root p document rest with
      ⟨cause, message, hr, hs⟩ | ⟨source, p₁, hr, ha, hs⟩
    · rw [hs] at h
      cases h
    · rw [hs] at h
      rw [reports_cons_of_read_ok hr ha, ih h, ha.drift, List.any_cons,
        Bool.and_or_distrib_left, Bool.or_assoc]

theorem summaries_of_steps_eq_ok {p p' : Progress} {documents : List Path}
    (h : steps args r options root p documents = .ok p') :
    p'.summaries = p.summaries ++ (reports options p.files documents).map fun x =>
      r.documentJson (shown root x.1) x.2 := by
  induction documents generalizing p with
  | nil =>
    cases h
    simp [reports]
  | cons document rest ih =>
    rcases steps_cons_cases args r options root p document rest with
      ⟨cause, message, hr, hs⟩ | ⟨source, p₁, hr, ha, hs⟩
    · rw [hs] at h
      cases h
    · rw [hs] at h
      rw [reports_cons_of_read_ok hr ha, ih h, ha.summaries, List.map_cons, List.append_assoc,
        List.singleton_append]

variable (fs : FileSystem) (documents : List Path)

theorem writes_process : (process args r options root fs documents).writes =
    (reports options fs documents).filterMap (written? options) := by
  have h := filterMap_write?_steps args r options root ⟨fs, [], [], false⟩ documents
  rw [List.filterMap_nil, List.nil_append] at h
  rw [Transcript.writes_eq, ← h, process]
  split
  · next p message hs => simp [hs, reached, Event.write?]
  · next p hs => simp [hs, reached]

theorem files_process : (process args r options root fs documents).files =
    (reached (steps args r options root ⟨fs, [], [], false⟩ documents)).files := by
  rw [process]
  split
  · next hs => rw [hs, reached]
  · next hs => rw [hs, reached]

theorem alike_process : fs.Alike (process args r options root fs documents).files := by
  rw [files_process]
  exact alike_steps args r options root ⟨fs, [], [], false⟩ documents

theorem status_process : (process args r options root fs documents).ending.status =
    if AllReadable fs documents then
      if options.mode = .verify ∧ (reports options fs documents).any (·.2.changed) then 1 else 0
    else 2 := by
  have h := isOk_steps_iff args r options root ⟨fs, [], [], false⟩ documents
  rw [process]
  split
  · next p message hs =>
    rw [hs] at h
    rw [if_neg fun hr => nomatch h.2 hr]
    rfl
  · next p hs =>
    rw [hs] at h
    rw [if_pos (h.1 rfl)]
    have hd := drift_of_steps_eq_ok args r options root hs
    rw [Bool.false_or] at hd
    simp only [hd, Bool.and_eq_true, decide_eq_true_eq]
    split <;> rfl

section

variable {options : EmbedOptions} (hw : options.mode ≠ .write)

include hw

theorem writesBack_eq_false (report : Report) : writesBack options report = false := by
  simp [writesBack, hw]

theorem files_steps_of_ne_write (p : Progress) (documents : List Path) :
    (reached (steps args r options root p documents)).files = p.files := by
  induction documents generalizing p with
  | nil => rfl
  | cons document rest ih =>
    rcases steps_cons_cases args r options root p document rest with
      ⟨cause, message, hr, hs⟩ | ⟨source, p', hr, ha, hs⟩
    · rw [hs]
      rfl
    · have hfiles := ha.files
      rw [filesAfter, writesBack_eq_false hw] at hfiles
      rw [hs, ih p']
      exact (Except.ok.inj hfiles).symm

theorem files_process_of_ne_write : (process args r options root fs documents).files = fs := by
  rw [files_process]
  exact files_steps_of_ne_write args r root hw ⟨fs, [], [], false⟩ documents

theorem writes_process_of_ne_write : (process args r options root fs documents).writes = [] := by
  rw [writes_process, List.filterMap_eq_nil_iff]
  intro x _
  rw [written?, writesBack_eq_false hw]
  rfl

end

theorem prepare_eq_ok_iff {args : Arguments} {root : Path} {fs : FileSystem}
    {config? : Option Config} {documents : List Path} :
    prepare args root fs = .ok (config?, documents) ↔ Config.load fs root = .ok config? ∧
      Discovery.collect fs root args.files (discoveryOptions config?) = .ok documents ∧
      (args.mode = .stdout → documents.length ≤ 1) := by
  rw [prepare]
  cases Config.load fs root with
  | error cause => simp
  | ok config =>
    simp only [Except.ok.injEq]
    constructor
    · intro h
      split at h
      · cases h
      · next hcollect =>
        split at h
        · cases h
        · next hone =>
          cases h
          exact ⟨rfl, hcollect, by simpa using hone⟩
    · rintro ⟨rfl, hcollect, hone⟩
      simp only [hcollect]
      rw [if_neg (by simpa using hone)]

def reporterOf (colors : Bool) (a : Arguments) (options : EmbedOptions) : Reporter :=
  ⟨a.format, a.mode, a.silent, options.stripComment, colors && !a.noColor⟩

section

variable {fs} {colors : Bool} {args : List Text} {a : Arguments}

theorem withArguments_of_prepare_eq_error {cause : Failure}
    (h : prepare a (a.path?.getD fs.workingPath) fs = .error cause) :
    withArguments fs colors a = ⟨[], .failed cause, fs⟩ := by
  simp only [withArguments, h]

theorem withArguments_of_prepare_eq_ok {config? : Option Config} {documents : List Path}
    (h : prepare a (a.path?.getD fs.workingPath) fs = .ok (config?, documents)) :
    withArguments fs colors a =
      process a (reporterOf colors a (embedOptions a config? (a.path?.getD fs.workingPath)))
        (embedOptions a config? (a.path?.getD fs.workingPath)) (a.path?.getD fs.workingPath) fs
        documents := by
  simp only [withArguments, h, reporterOf]

variable (ha : Arguments.parse args = .ok a)

include ha

theorem start_of_parse_eq_ok : start fs colors args = withArguments fs colors a := by
  rw [start, ha]

theorem start_of_prepare_eq_error {cause : Failure}
    (h : prepare a (a.path?.getD fs.workingPath) fs = .error cause) :
    start fs colors args = ⟨[], .failed cause, fs⟩ := by
  rw [start_of_parse_eq_ok ha, withArguments_of_prepare_eq_error h]

theorem start_of_prepare_eq_ok {config? : Option Config} {documents : List Path}
    (h : prepare a (a.path?.getD fs.workingPath) fs = .ok (config?, documents)) :
    start fs colors args =
      process a (reporterOf colors a (embedOptions a config? (a.path?.getD fs.workingPath)))
        (embedOptions a config? (a.path?.getD fs.workingPath)) (a.path?.getD fs.workingPath) fs
        documents := by
  rw [start_of_parse_eq_ok ha, withArguments_of_prepare_eq_ok h]

end

/-- A run makes and removes no file, directory or link, and a file is a text after it if it was one
before. -/
theorem alike_start (colors : Bool) (args : List Text) : fs.Alike (start fs colors args).files := by
  cases ha : Arguments.parse args with
  | error cause =>
    rw [start, ha]
    exact FileSystem.Alike.refl fs
  | ok a =>
    cases hp : prepare a (a.path?.getD fs.workingPath) fs with
    | error cause =>
      rw [start_of_prepare_eq_error ha hp]
      exact FileSystem.Alike.refl fs
    | ok x =>
      rw [start_of_prepare_eq_ok ha hp]
      exact alike_process a _ _ _ fs x.2

end Run
end FenceSync
