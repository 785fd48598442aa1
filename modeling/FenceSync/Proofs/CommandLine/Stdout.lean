import FenceSync.Proofs.CommandLine.Arguments
import FenceSync.Proofs.CommandLine.Reports
import FenceSync.Proofs.Discovery.Documents
import FenceSync.Proofs.Json.Reader
/-!
# Standard output

In stdout mode standard output holds the new document, and behind `--format json` one JSON value in
a line of its own. All else that a run says goes elsewhere then, whatever the documents are.
-/
namespace FenceSync

def Event.prints : Event → List Text
  | .stdout text => [text]
  | _ => []

/-- What a run puts on standard output, piece by piece. -/
def Transcript.prints (t : Transcript) : List Text := t.events.flatMap Event.prints

theorem Transcript.stdout_eq (t : Transcript) : t.stdout = t.prints.flatten := by
  rw [prints, ← List.flatMap_id, List.flatMap_assoc, stdout]
  refine List.flatMap_congr fun e _ => ?_
  cases e <;> simp [Event.prints]

namespace Reporter

variable {r : Reporter}

theorem prints_log {isError : Bool} (h : isError = true ∨ r.logsToStderr = true) (line : Text) :
    (r.log isError line).flatMap Event.prints = [] := by
  have hstderr : (isError || r.logsToStderr) = true := Bool.or_eq_true_iff.2 h
  rw [log, hstderr]
  split <;> rfl

theorem prints_machine (line : Text) : (r.machine line).flatMap Event.prints =
    if r.mode = .stdout then [] else [line ++ ['\n']] := by
  rw [machine]
  split <;> rfl

theorem prints_difference (rel current expected : Text) :
    (r.difference rel current expected).flatMap Event.prints = [] := by
  rw [difference, List.flatMap_append, List.flatMap_map]
  simp [Event.prints]

def remarks (r : Reporter) (rel : Text) (blocks : List Block) : List Text :=
  if r.format = .github ∧ r.mode ≠ .stdout then
    (blocks.filterMap (r.remark? rel)).map (· ++ ['\n'])
  else []

theorem prints_block (h : r.logsToStderr = true) (rel : Text) (b : Block) :
    (r.block rel b).flatMap Event.prints = r.remarks rel [b] := by
  rw [block, List.flatMap_append, prints_log (.inr h), List.nil_append, remarks]
  by_cases hgithub : r.format = .github
  · cases hremark : r.remark? rel b with
    | none => simp [hremark]
    | some line =>
      simp only [hgithub, if_true, Option.map_some, Option.getD_some, prints_machine]
      split <;> simp [*]
  · simp [hgithub]

theorem remarks_cons (rel : Text) (b : Block) (blocks : List Block) :
    r.remarks rel (b :: blocks) = r.remarks rel [b] ++ r.remarks rel blocks := by
  rw [remarks, remarks, remarks]
  split
  · rw [← List.map_append, ← List.filterMap_append, List.singleton_append]
  · rfl

theorem prints_blocks (h : r.logsToStderr = true) (rel : Text) (blocks : List Block) :
    (blocks.flatMap (r.block rel)).flatMap Event.prints = r.remarks rel blocks := by
  induction blocks with
  | nil => simp [remarks]
  | cons b blocks ih =>
    rw [List.flatMap_cons, List.flatMap_append, prints_block h, ih, ← remarks_cons]

end Reporter

namespace Run

variable {args : Arguments} {r : Reporter} {options : EmbedOptions} {root : Path}

theorem prints_blockEvents (h : r.logsToStderr = true) (document : Path) (report : Report) :
    (blockEvents r options root document report).flatMap Event.prints =
      r.remarks (shown root document) report.blocks := by
  rw [blockEvents]
  simp only [List.flatMap_append, Reporter.prints_log (.inr h), Reporter.prints_blocks h,
    List.nil_append]
  split
  · rw [Reporter.prints_log (.inr h), List.append_nil]
  · exact List.append_nil _

theorem prints_useEvents (document : Path) (source : Text) (report : Report) :
    (useEvents args r options root document source report).flatMap Event.prints =
      if options.mode = .stdout then [report.output] else [] := by
  have hwrite : (if writesBack options report then [Event.write document report.output]
      else []).flatMap Event.prints = [] := by
    split <;> rfl
  have hdiff : (if args.diff && report.changed then
      r.difference (shown root document) source report.output else []).flatMap Event.prints =
        [] := by
    split
    · exact Reporter.prints_difference _ _ _
    · rfl
  rw [useEvents, List.flatMap_append, List.flatMap_append, hwrite, hdiff, List.nil_append,
    List.append_nil]
  split <;> rfl

theorem prints_closing (p : Progress) : (closing args r p).flatMap Event.prints =
    if args.format = .json ∧ r.mode ≠ .stdout then
      [(r.summary p.drift p.summaries).render ++ ['\n']] else [] := by
  have hdrift : (if p.drift then r.log true (Style.red.apply r.colors
      "Diff detected, exiting 1".toList) else []).flatMap Event.prints = [] := by
    split
    · exact Reporter.prints_log (.inl rfl) _
    · rfl
  rw [closing, List.flatMap_append, hdrift, List.append_nil]
  by_cases hjson : args.format = .json
  · rw [if_pos hjson, Reporter.prints_machine]
    by_cases hmode : r.mode = .stdout <;> simp [hjson, hmode]
  · simp [hjson]

/-- What shows of a document: what machines are told about its blocks, and its new form. -/
def documentPrints (r : Reporter) (options : EmbedOptions) (root : Path) (x : Path × Report) :
    List Text :=
  r.remarks (shown root x.1) x.2.blocks ++ if options.mode = .stdout then [x.2.output] else []

variable {fs : FileSystem} {documents : List Path}

def summaryOf (r : Reporter) (options : EmbedOptions) (root : Path) (fs : FileSystem)
    (documents : List Path) (status : Nat) : Json :=
  r.summary (status = 1)
    ((reports options fs documents).map fun x => r.documentJson (shown root x.1) x.2)

/-- A run that does not fail has come to the end of its documents. -/
theorem exists_steps_eq_ok_of_status_ne_two
    (h : (process args r options root fs documents).ending.status ≠ 2) :
    ∃ p, steps args r options root ⟨fs, [], [], false⟩ documents = .ok p ∧
      process args r options root fs documents =
        ⟨p.events ++ closing args r p, if p.drift then .drift else .done, p.files⟩ := by
  cases hs : steps args r options root ⟨fs, [], [], false⟩ documents with
  | error stop =>
    rw [process, hs] at h
    exact absurd rfl h
  | ok p => exact ⟨p, rfl, by rw [process, hs]⟩

/-- A run that keeps its log off standard output prints what shows of its documents and, for
machines, their summary. -/
theorem prints_process (hr : r.logsToStderr = true)
    (h : (process args r options root fs documents).ending.status ≠ 2) :
    (process args r options root fs documents).prints =
      (reports options fs documents).flatMap (documentPrints r options root) ++
        if args.format = .json ∧ r.mode ≠ .stdout then
          [(summaryOf r options root fs documents
            (process args r options root fs documents).ending.status).render ++ ['\n']]
        else [] := by
  have hdocument (document : Path) (source : Text) (report : Report) :
      (blockEvents r options root document report ++
        useEvents args r options root document source report).flatMap Event.prints =
        documentPrints r options root (document, report) := by
    rw [List.flatMap_append, prints_blockEvents hr, prints_useEvents, documentPrints]
  obtain ⟨p, hs, hp⟩ := exists_steps_eq_ok_of_status_ne_two h
  have hsteps := flatMap_steps hdocument ⟨fs, [], [], false⟩ documents
  rw [hs, reached] at hsteps
  have hsummaries := summaries_of_steps_eq_ok args r options root hs
  rw [List.nil_append] at hsummaries
  have hstatus : p.drift = decide ((if p.drift then Ending.drift else .done).status = 1) := by
    cases p.drift <;> rfl
  rw [hp, Transcript.prints, List.flatMap_append, hsteps, prints_closing, summaryOf, ← hstatus,
    hsummaries]
  rfl

theorem stdout_process_of_mode (hr : r.mode = .stdout) (ho : options.mode = .stdout)
    (h : (process args r options root fs documents).ending.status ≠ 2) :
    (process args r options root fs documents).stdout =
      (reports options fs documents).flatMap (·.2.output) := by
  have hlog : r.logsToStderr = true := by simp [Reporter.logsToStderr, hr]
  rw [Transcript.stdout_eq, prints_process hlog h, if_neg (by simp [hr]), List.append_nil,
    ← List.flatMap_id, List.flatMap_assoc]
  simp [documentPrints, Reporter.remarks, hr, ho]

theorem stdout_process_of_format (hr : r.format = .json) (ha : args.format = .json)
    (hmode : r.mode ≠ .stdout) (ho : options.mode ≠ .stdout)
    (h : (process args r options root fs documents).ending.status ≠ 2) :
    (process args r options root fs documents).stdout =
      (summaryOf r options root fs documents
        (process args r options root fs documents).ending.status).render ++ ['\n'] := by
  have hlog : r.logsToStderr = true := by simp [Reporter.logsToStderr, hr]
  rw [Transcript.stdout_eq, prints_process hlog h, if_pos ⟨ha, hmode⟩, ← List.flatMap_id,
    List.flatMap_append, List.flatMap_assoc]
  simp [documentPrints, Reporter.remarks, hr, ho]

theorem allReadable_of_status_ne_two
    (h : (process args r options root fs documents).ending.status ≠ 2) :
    AllReadable fs documents := by
  by_contra hn
  exact h (by rw [status_process, if_neg hn])

/-- Stdout mode takes one document. -/
theorem exists_eq_singleton_of_prepare (hmode : args.mode = .stdout) {config? : Option Config}
    (h : prepare args root fs = .ok (config?, documents)) : ∃ document, documents = [document] := by
  obtain ⟨-, hcollect, hone⟩ := prepare_eq_ok_iff.1 h
  obtain ⟨-, -, -, hne⟩ := Discovery.collect_eq_ok_iff.1 hcollect
  have hpos := List.length_pos_iff.2 hne
  exact List.length_eq_one_iff.1 (Nat.le_antisymm (hone hmode) hpos)

end Run

/-- A run in stdout mode that succeeds prints the new form of its one document, as it is, and
changes no file. Without that mode, a run behind `--format json` that does not fail prints one JSON
value, the summary of its documents, and a line feed. -/
theorem stdout_holds_result (fs : FileSystem) (colors : Bool) (args : List Text) {a : Arguments}
    (ha : Arguments.parse args = .ok a) :
    let t := Run.start fs colors args
    let root := a.path?.getD fs.workingPath
    (a.stdout = true → t.ending.status = 0 → ∃ config? document source,
      Run.prepare a root fs = .ok (config?, [document]) ∧ fs.read document = .ok source ∧
      t.stdout = (Document.embed fs (Run.embedOptions a config? root) document source).output ∧
      t.writes = [] ∧ t.files = fs) ∧
    (a.stdout = false → a.format = .json → t.ending.status = 0 ∨ t.ending.status = 1 →
      ∃ config? documents value, Run.prepare a root fs = .ok (config?, documents) ∧
        value = Run.summaryOf (Run.reporterOf colors a (Run.embedOptions a config? root))
          (Run.embedOptions a config? root) root fs documents t.ending.status ∧
        t.stdout = value.render ++ ['\n'] ∧ Json.parse? value.render = some value ∧
        '\n' ∉ value.render) := by
  intro t root
  cases hp : Run.prepare a root fs with
  | error cause =>
    have ht : t = ⟨[], .failed cause, fs⟩ := Run.start_of_prepare_eq_error ha hp
    rw [ht]
    exact ⟨fun _ h => absurd h (by simp [Ending.status]),
      fun _ _ h => absurd h (by simp [Ending.status])⟩
  | ok x =>
    obtain ⟨config?, documents⟩ := x
    have ht : t = Run.process a _ _ root fs documents := Run.start_of_prepare_eq_ok ha hp
    rw [ht]
    have hmode := Arguments.mode_eq_stdout_iff ha
    refine ⟨fun hstdout hstatus => ?_, fun hstdout hjson hstatus => ?_⟩
    · have hm : a.mode = .stdout := hmode.2 hstdout
      obtain ⟨document, rfl⟩ := Run.exists_eq_singleton_of_prepare hm hp
      have hw : a.mode ≠ .write := by simp [hm]
      have hs := hstatus.trans_ne (show 0 ≠ 2 by decide)
      have hread := Run.allReadable_of_status_ne_two hs document List.mem_cons_self
      cases hsource : fs.read document with
      | error cause =>
        rw [hsource] at hread
        cases hread
      | ok source =>
        refine ⟨config?, document, source, rfl, hsource, ?_,
          Run.writes_process_of_ne_write _ _ _ _ _ hw, Run.files_process_of_ne_write _ _ _ _ _ hw⟩
        rw [Run.stdout_process_of_mode hm hm hs, Run.reports_singleton _ hsource]
        exact List.append_nil _
    · have hm : a.mode ≠ .stdout := fun h => by simp [hmode.1 h] at hstdout
      have hvalue := Run.stdout_process_of_format hjson hjson hm hm
        (by rcases hstatus with h | h <;> rw [h] <;> decide)
      exact ⟨config?, documents, _, rfl, rfl, hvalue, Json.parse?_render _,
        Json.newline_not_mem_render _⟩

/-- The document has a block that is filled and one that cannot be. The first run speaks of both to
people and in annotations, the second finds it out of date. -/
theorem stdout_holds_result_sample :
    let fs : FileSystem :=
      ⟨[(["a".toList], .file (Text.bytes "\"\\\t\"\n".toList)),
        (["b".toList], .file (Text.bytes
          "\x60\x60\x60js\n// a\n\x60\x60\x60\n\x60\x60\x60js\n// c\n\x60\x60\x60\n".toList))], []⟩
    let a : Arguments :=
      ⟨["b".toList], false, false, true, none, false, false, true, .github, false, false, none⟩
    let a' : Arguments :=
      ⟨["b".toList], true, false, false, none, false, false, true, .json, false, false, none⟩
    let args : List Text := ["--stdout", "--diff", "--format=github", "b"].map String.toList
    let args' : List Text := ["--verify", "--diff", "--format=json", "b"].map String.toList
    Arguments.parse args = .ok a ∧ (Run.start fs true args).ending.status = 0 ∧
      (∃ config? document source, Run.prepare a fs.workingPath fs = .ok (config?, [document]) ∧
        fs.read document = .ok source ∧
        (Run.start fs true args).stdout =
          (Document.embed fs (Run.embedOptions a config? fs.workingPath) document source).output ∧
        (Run.start fs true args).writes = [] ∧ (Run.start fs true args).files = fs) ∧
      Arguments.parse args' = .ok a' ∧ (Run.start fs true args').ending.status = 1 ∧
      ∃ config? documents value, Run.prepare a' fs.workingPath fs = .ok (config?, documents) ∧
        value = Run.summaryOf
          (Run.reporterOf true a' (Run.embedOptions a' config? fs.workingPath))
          (Run.embedOptions a' config? fs.workingPath) fs.workingPath fs documents
          (Run.start fs true args').ending.status ∧
        (Run.start fs true args').stdout = value.render ++ ['\n'] ∧
        Json.parse? value.render = some value ∧ '\n' ∉ value.render := by
  intro fs a a' args args'
  have ha : Arguments.parse args = .ok a := by decide
  have ha' : Arguments.parse args' = .ok a' := by decide
  have hstatus : (Run.start fs true args).ending.status = 0 := by decide +kernel
  have hstatus' : (Run.start fs true args').ending.status = 1 := by decide +kernel
  exact ⟨ha, hstatus, (stdout_holds_result fs true args ha).1 rfl hstatus, ha', hstatus',
    (stdout_holds_result fs true args' ha').2 rfl rfl (.inr hstatus')⟩

end FenceSync
