import FenceSync.Proofs.CommandLine.Reports
import FenceSync.Proofs.Discovery.Documents
import FenceSync.Proofs.Embed.Independence
import FenceSync.Proofs.Files.Working
import FenceSync.Proofs.Snippet.Source
import Mathlib.Data.List.Find
/-!
# One root in two spellings

A run from a relative root and the run from the same root behind the working directory process the
same documents and look for their sources in the same places, if the root is the root when read from
itself. Then both write the same texts and end alike, whatever they say about the paths. Patterns
are left aside: they are matched against whole paths as well, so another spelling of the root can
select other documents.
-/
namespace FenceSync

namespace Run

/-- The files that a run looks for, to fill the blocks of its documents. -/
def consulted (options : EmbedOptions) (fs : FileSystem) : List Path → List Path
  | [] => []
  | document :: rest =>
    match fs.read document with
    | .error _ => []
    | .ok source =>
      (Document.targets source).map (fun t => Snippet.sourcePath options document t.path) ++
        match filesAfter options fs document (Document.embed fs options document source) with
        | .error _ => []
        | .ok fs => consulted options fs rest

/-- What a run keeps track of is the same, but for what it says. -/
structure Progress.Alike (p p' : Progress) : Prop where
  files : p'.files = p.files
  drift : p'.drift = p.drift

theorem isAbsolute_sourcePath {options : EmbedOptions} (h : options.workingDir.isAbsolute = true)
    (document : Path) (target : Text) :
    (Snippet.sourcePath options document target).isAbsolute = true := by
  rw [Snippet.sourcePath, Path.resolve, Path.isAbsolute_normalize]
  exact Path.isAbsolute_join_of_isAbsolute (Path.isAbsolute_join_of_isAbsolute h _) _

section

variable {fs : FileSystem} {root : Path} {args : Arguments} {config? : Option Config}
  (hsource : args.sourceRoot?.or (config?.bind Config.sourceRoot?) = none)
  (hroot : ((fs.workingPath.join root).join root).normalize =
    (fs.workingPath.join root).normalize)
  {document : Path} (hd : document.IsNamed)

include hsource hroot hd

theorem sourcePath_join_workingPath (target : Text) :
    Snippet.sourcePath (embedOptions args config? (fs.workingPath.join root))
        (fs.workingPath.join (root.join document)) target =
      (fs.workingPath.join (Snippet.sourcePath (embedOptions args config? root)
        (root.join document) target)).normalize := by
  have habs : (Snippet.sourcePath (embedOptions args config? (fs.workingPath.join root))
      (fs.workingPath.join (root.join document)) target).isAbsolute = true :=
    isAbsolute_sourcePath (Path.isAbsolute_join_of_isAbsolute rfl root) _ _
  have hleads : leads fs args config? root document target =
      leads fs args config? (fs.workingPath.join root) document target :=
    leads_eq_leads_join_workingPath hsource hroot hd target
  rw [leads, leads, ← Path.join_assoc, Path.join_of_isAbsolute habs] at hleads
  rw [hleads, Snippet.sourcePath_eq, Path.normalize_normalize]

/-- A target is read alike in both spellings of a document. -/
theorem readsAlike_join_workingPath (hg : fs.Grounded) {target : Target}
    (hshort : (Snippet.sourcePath (embedOptions args config? root) (root.join document)
      target.path).bytes.length < FileSystem.pathLimit)
    (hshort' : (Snippet.sourcePath (embedOptions args config? (fs.workingPath.join root))
      (fs.workingPath.join (root.join document)) target.path).bytes.length <
        FileSystem.pathLimit) :
    Document.ReadsAlike fs (embedOptions args config? root)
      (embedOptions args config? (fs.workingPath.join root)) (root.join document)
      (fs.workingPath.join (root.join document)) target := by
  intro content
  rw [sourcePath_join_workingPath hsource hroot hd] at hshort' ⊢
  have hnormal : (Snippet.sourcePath (embedOptions args config? root) (root.join document)
      target.path).normalize = Snippet.sourcePath (embedOptions args config? root)
        (root.join document) target.path := Path.normalize_normalize _
  rw [← hnormal] at hshort
  rw [hg.read_normalize_workingPath_join hshort hshort', hnormal]

end

theorem consulted_cons {options : EmbedOptions} {args : Arguments} {r : Reporter} {base : Path}
    {p p' : Progress} {document : Path} {source : Text} (hread : p.files.read document = .ok source)
    (ha : Advances args r options base p document source
      (Document.embed p.files options document source) p') (rest : List Path) :
    consulted options p.files (document :: rest) =
      (Document.targets source).map (fun t => Snippet.sourcePath options document t.path) ++
        consulted options p'.files rest := by
  simp only [consulted, hread, ha.files]

/-- Two progresses stay alike over a document with reports that say the same of its new form. -/
theorem Advances.alike_of_eq {a a' : Arguments} {r r' : Reporter} {options options' : EmbedOptions}
    {base base' document document' : Path} {source : Text} {report report' : Report}
    {p p' p₁ p₁' : Progress} (h : Advances a r options base p document source report p₁)
    (h' : Advances a' r' options' base' p' document' source report' p₁') (hp : p.Alike p')
    (hmode : options'.mode = options.mode) (houtput : report'.output = report.output)
    (hchanged : report'.changed = report.changed)
    (hwrite : ∀ content, p.files.write document' content = p.files.write document content) :
    p₁.Alike p₁' := by
  constructor
  · have hfiles : filesAfter options' p'.files document' report' =
        filesAfter options p.files document report := by
      rw [filesAfter, filesAfter, writesBack, writesBack, hmode, houtput, hchanged, hp.files,
        hwrite]
    rw [h.files, h'.files] at hfiles
    exact Except.ok.inj hfiles
  · rw [h.drift, h'.drift, hp.drift, hmode, hchanged]

structure EndAlike (s s' : Except (Progress × Text) Progress) : Prop where
  isOk : s'.isOk = s.isOk
  reached : (reached s).Alike (reached s')

/-- Documents are processed alike in both spellings. -/
theorem steps_join_workingPath {cwd root base base' : Path} {args a a' : Arguments}
    {config? : Option Config} {r r' : Reporter}
    (hsource : args.sourceRoot?.or (config?.bind Config.sourceRoot?) = none)
    (hroot : ((cwd.join root).join root).normalize = (cwd.join root).normalize)
    {documents : List Path} (hdocuments : ∀ d ∈ documents, d.bytes ≠ [] ∧
      (cwd.join d).bytes.length < FileSystem.pathLimit ∧ ∃ x : Path, x.IsNamed ∧ d = root.join x)
    {p p' : Progress} (hp : p.Alike p') (hg : p.files.Grounded) (hcwd : p.files.workingPath = cwd)
    (hshort : ∀ q ∈ consulted (embedOptions args config? root) p.files documents,
      q.bytes.length < FileSystem.pathLimit)
    (hshort' : ∀ q ∈ consulted (embedOptions args config? (cwd.join root)) p'.files
      (documents.map cwd.join), q.bytes.length < FileSystem.pathLimit) :
    EndAlike (steps a r (embedOptions args config? root) base p documents)
      (steps a' r' (embedOptions args config? (cwd.join root)) base' p'
        (documents.map cwd.join)) := by
  induction documents generalizing p p' with
  | nil => exact ⟨rfl, hp⟩
  | cons d rest ih =>
    obtain ⟨⟨hne, hlen, x, hx, rfl⟩, hrest⟩ := List.forall_mem_cons.1 hdocuments
    subst hcwd
    have hread : p'.files.read (p.files.workingPath.join (root.join x)) =
        p.files.read (root.join x) := by
      rw [hp.files, hg.read_workingPath_join hne hlen]
    have hcases := steps_cons_cases a r (embedOptions args config? root) base p (root.join x) rest
    have hcases' := steps_cons_cases a' r'
      (embedOptions args config? (p.files.workingPath.join root)) base' p'
      (p.files.workingPath.join (root.join x)) (rest.map p.files.workingPath.join)
    rcases hcases with ⟨cause, message, hr, hs⟩ | ⟨source, p₁, hr, ha, hs⟩
    · rcases hcases' with ⟨_, message', -, hs'⟩ | ⟨source', _, hr', -⟩
      · rw [hs, List.map_cons, hs']
        exact ⟨rfl, hp⟩
      · cases hr.symm.trans (hread.symm.trans hr')
    · rcases hcases' with ⟨_, _, hr', -⟩ | ⟨source', p₁', hr', ha', hs'⟩
      · cases hr.symm.trans (hread.symm.trans hr')
      cases hr.symm.trans (hread.symm.trans hr')
      rw [consulted_cons hr ha, List.forall_mem_append, List.forall_mem_map] at hshort
      rw [List.map_cons, consulted_cons hr' ha', List.forall_mem_append,
        List.forall_mem_map] at hshort'
      have halike : ∀ t ∈ Document.targets source, Document.ReadsAlike p.files
          (embedOptions args config? root)
          (embedOptions args config? (p.files.workingPath.join root)) (root.join x)
          (p.files.workingPath.join (root.join x)) t := fun t ht =>
        readsAlike_join_workingPath hsource hroot hx hg (hshort.1 t ht) (hshort'.1 t ht)
      rw [hp.files] at ha'
      have hstrip : (embedOptions args config? (p.files.workingPath.join root)).stripComment =
          (embedOptions args config? root).stripComment := rfl
      have houtput := Document.output_embed_of_readsAlike hstrip halike
      have hchanged := Document.changed_embed_of_readsAlike hstrip halike
      have hp₁ : p₁.Alike p₁' :=
        ha.alike_of_eq ha' hp rfl houtput hchanged (hg.write_workingPath_join hne hlen)
      have hwd : p₁.files.workingPath = p.files.workingPath := by
        rw [FileSystem.workingPath, FileSystem.workingPath, ha.alike.workingDirectory]
      rw [hs, List.map_cons, hs']
      exact ih hrest hp₁ (ha.alike.grounded hg) hwd hshort.2 hshort'.2

theorem status_process_eq (a : Arguments) (r : Reporter) (options : EmbedOptions) (base : Path)
    (fs : FileSystem) (documents : List Path) :
    (process a r options base fs documents).ending.status =
      let s := steps a r options base ⟨fs, [], [], false⟩ documents
      if s.isOk then if (reached s).drift then 1 else 0 else 2 := by
  rw [process]
  cases steps a r options base ⟨fs, [], [], false⟩ documents with
  | error stop => rfl
  | ok p =>
    change (if p.drift then Ending.drift else .done).status = if p.drift then 1 else 0
    split <;> rfl

theorem EndAlike.process_eq {a a' : Arguments} {r r' : Reporter} {options options' : EmbedOptions}
    {base base' : Path} {fs : FileSystem} {documents documents' : List Path}
    (h : EndAlike (steps a r options base ⟨fs, [], [], false⟩ documents)
      (steps a' r' options' base' ⟨fs, [], [], false⟩ documents')) :
    (process a' r' options' base' fs documents').ending.status =
        (process a r options base fs documents).ending.status ∧
      (process a' r' options' base' fs documents').files =
        (process a r options base fs documents).files := by
  rw [status_process_eq, status_process_eq, files_process, files_process]
  exact ⟨by simp only [h.isOk, h.reached.drift], h.reached.files⟩

end Run

namespace Discovery

variable {fs : FileSystem} {root : Path} {inputs : List Text}

/-- Below the root, named documents come in the same order in both spellings. -/
theorem sortDistinct_join_workingPath (hne : root.bytes ≠ [])
    (hinputs : ∀ input ∈ inputs, (⟨bare input⟩ : Path).isAbsolute = false) :
    Path.sortDistinct (inputs.map (inputPath (fs.workingPath.join root))) =
      (Path.sortDistinct (inputs.map (inputPath root))).map fs.workingPath.join := by
  have hjoin : inputs.map (inputPath (fs.workingPath.join root)) =
      (inputs.map (inputPath root)).map fs.workingPath.join := by
    rw [List.map_map]
    exact List.map_congr_left fun input _ => (Path.join_assoc _ _ _).symm
  rw [hjoin]
  refine Path.sortDistinct_map ?_
  simp only [List.forall_mem_map]
  intro input hi input' hi'
  have hx := hinputs input hi
  have hy := hinputs input' hi'
  cases hroot : root.isAbsolute with
  | true =>
    have habs (input : Text) : (inputPath root input).isAbsolute = true :=
      Path.isAbsolute_join_of_isAbsolute hroot _
    rw [Path.join_of_isAbsolute (habs input), Path.join_of_isAbsolute (habs input')]
  | false =>
    refine Path.compare_join (List.cons_ne_nil _ _) (Path.isAbsolute_join_of_relative hroot hx)
      (Path.isAbsolute_join_of_relative hroot hy) ?_
    rw [inputPath, inputPath, Path.leader_join hx hne, Path.leader_join hy hne]

end Discovery

theorem Config.load_join_workingPath {fs : FileSystem} {root : Path} (hg : fs.Grounded)
    (hne : root.bytes ≠ []) (hshort : ∀ name ∈ candidates,
      ((fs.workingPath.join root).join ⟨name.toList⟩).bytes.length < FileSystem.pathLimit) :
    load fs (fs.workingPath.join root) = load fs root := by
  simp only [← Path.join_assoc] at hshort
  have hpath : path? fs (fs.workingPath.join root) =
      (path? fs root).map fs.workingPath.join := by
    rw [path?, path?, List.find?_map, List.find?_map, Option.map_map]
    have hfind : candidates.find? (fs.isFile ∘ fun name =>
        (fs.workingPath.join root).join ⟨name.toList⟩) =
          candidates.find? (fs.isFile ∘ fun name => root.join ⟨name.toList⟩) :=
      List.find?_congr fun name hname => by
        rw [Function.comp_apply, Function.comp_apply, ← Path.join_assoc,
          hg.isFile_workingPath_join (Path.bytes_join_ne_nil hne _) (hshort name hname)]
    rw [hfind]
    exact congrArg (Option.map · _) (funext fun name => (Path.join_assoc _ _ _).symm)
  rw [load, load, hpath]
  cases hp : path? fs root with
  | none => rfl
  | some p =>
    obtain ⟨name, hname, rfl⟩ := List.mem_map.1 (List.mem_of_find?_eq_some hp)
    simp only [Option.map_some,
      hg.read_workingPath_join (Path.bytes_join_ne_nil hne _) (hshort name hname)]

namespace Run

def NamesDocuments (fs : FileSystem) (root : Path) (inputs : List Text) : Prop :=
  ∀ input ∈ inputs, (⟨Discovery.bare input⟩ : Path).IsNamed ∧
    (⟨Discovery.bare input⟩ : Path).isAbsolute = false ∧
      fs.isFile (Discovery.inputPath root input) = true

/-- The paths that a run over named documents looks up. -/
def lookups (fs : FileSystem) (args : Arguments) (config? : Option Config) (root : Path) :
    List Path :=
  let documents := args.files.map (Discovery.inputPath root)
  Config.candidates.map (fun name => root.join ⟨name.toList⟩) ++ documents ++
    consulted (embedOptions args config? root) fs (Path.sortDistinct documents)

section

variable {fs : FileSystem} {args : Arguments} {config? : Option Config} {root : Path}
  (hg : fs.Grounded) (hne : root.bytes ≠ []) (hconfig : Config.load fs root = .ok config?)
  (hinputs : NamesDocuments fs root args.files)
  (hshort : ∀ p ∈ lookups fs args config? (fs.workingPath.join root),
    p.bytes.length < FileSystem.pathLimit)

include hshort in
theorem length_inputPath_lt {input : Text} (hi : input ∈ args.files) :
    (fs.workingPath.join (Discovery.inputPath root input)).bytes.length <
      FileSystem.pathLimit := by
  refine hshort _ (List.mem_append_left _ (List.mem_append_right _ ?_))
  rw [Discovery.inputPath, Path.join_assoc]
  exact List.mem_map_of_mem hi

include hg hne hinputs hshort in
theorem NamesDocuments.join_workingPath :
    NamesDocuments fs (fs.workingPath.join root) args.files := by
  intro input hi
  obtain ⟨hnamed, habs, hfile⟩ := hinputs input hi
  refine ⟨hnamed, habs, ?_⟩
  rw [Discovery.inputPath, ← Path.join_assoc]
  exact (hg.isFile_workingPath_join (Path.bytes_join_ne_nil hne _)
    (length_inputPath_lt hshort hi)).trans hfile

include hg hne hconfig hinputs hshort in
/-- Both spellings lead to the same settings and the same documents. -/
theorem prepare_join_workingPath : prepare args (fs.workingPath.join root) fs =
    (prepare args root fs).map fun x => (x.1, x.2.map fs.workingPath.join) := by
  have hload : Config.load fs (fs.workingPath.join root) = .ok config? := by
    rw [Config.load_join_workingPath hg hne fun name hname => ?_, hconfig]
    exact hshort _ (List.mem_append_left _ (List.mem_append_left _ (List.mem_map_of_mem hname)))
  have hfiles := fun input hi => (hinputs input hi).2.2
  have hfiles' := fun input hi =>
    (hinputs.join_workingPath hg hne hshort input hi).2.2
  have hsort : Path.sortDistinct
      (args.files.map (Discovery.inputPath (fs.workingPath.join root))) = _ :=
    Discovery.sortDistinct_join_workingPath hne fun input hi => (hinputs input hi).2.1
  rw [prepare, prepare, hload, hconfig]
  simp only [Discovery.collect_of_isFile hfiles, Discovery.collect_of_isFile hfiles', hsort,
    List.isEmpty_map]
  cases (Path.sortDistinct (args.files.map (Discovery.inputPath root))).isEmpty with
  | true => rfl
  | false =>
    simp only [Bool.false_eq_true, if_false, List.length_map]
    split <;> rfl

end

/-- The spelling of the root makes no difference to how a run over named documents ends and to what
it writes, as long as there is no source root and the root, read from itself, is the root. -/
theorem ends_alike_of_normalize_eq (fs : FileSystem) (colors : Bool) (args : Arguments)
    (config? : Option Config) (root : Path) (hg : fs.Grounded) (hdir : fs.isDirectory root = true)
    (hconfig : Config.load fs root = .ok config?)
    (hsource : args.sourceRoot?.or (config?.bind Config.sourceRoot?) = none)
    (hinputs : NamesDocuments fs root args.files)
    (hshort : ∀ p ∈ lookups fs args config? root ++
      lookups fs args config? (fs.workingPath.join root), p.bytes.length < FileSystem.pathLimit)
    (hroot : ((fs.workingPath.join root).join root).normalize =
      (fs.workingPath.join root).normalize) :
    let run (root : Path) := withArguments fs colors { args with path? := some root }
    (run (fs.workingPath.join root)).ending.status = (run root).ending.status ∧
      (run (fs.workingPath.join root)).files = (run root).files := by
  intro run
  rw [List.forall_mem_append] at hshort
  have hne : root.bytes ≠ [] := by
    intro hb
    simp [FileSystem.isDirectory, FileSystem.entryAt?, FileSystem.locate, FileSystem.reach, hb]
      at hdir
  have hprepare := prepare_join_workingPath hg hne hconfig hinputs hshort.2
  cases hp : prepare args root fs with
  | error cause =>
    rw [hp] at hprepare
    rw [show run root = _ from withArguments_of_prepare_eq_error hp,
      show run (fs.workingPath.join root) = _ from withArguments_of_prepare_eq_error hprepare]
    exact ⟨rfl, rfl⟩
  | ok x =>
    obtain ⟨config', documents⟩ := x
    obtain ⟨hload, hcollect, -⟩ := prepare_eq_ok_iff.1 hp
    cases hconfig.symm.trans hload
    rw [Discovery.collect_of_isFile fun input hi => (hinputs input hi).2.2] at hcollect
    have hdocuments : documents =
        Path.sortDistinct (args.files.map (Discovery.inputPath root)) := by
      dsimp only at hcollect
      split at hcollect
      · cases hcollect
      · exact (Except.ok.inj hcollect).symm
    subst hdocuments
    rw [hp] at hprepare
    rw [show run root = _ from withArguments_of_prepare_eq_ok hp,
      show run (fs.workingPath.join root) = _ from withArguments_of_prepare_eq_ok hprepare]
    refine EndAlike.process_eq (steps_join_workingPath hsource hroot ?_ ⟨rfl, rfl⟩ hg rfl ?_ ?_)
    · intro d hd
      obtain ⟨input, hi, rfl⟩ := List.mem_map.1 (Path.mem_of_mem_sortDistinct hd)
      exact ⟨Path.bytes_join_ne_nil hne _, length_inputPath_lt hshort.2 hi, _,
        (hinputs input hi).1, rfl⟩
    · exact fun q hq => hshort.1 q (List.mem_append_right _ hq)
    · rw [← Discovery.sortDistinct_join_workingPath hne fun input hi => (hinputs input hi).2.1]
      exact fun q hq => hshort.2 q (List.mem_append_right _ hq)

/-- A document is filled from the file beside it in both spellings of the working directory. -/
theorem ends_alike_of_normalize_eq_sample :
    let fs : FileSystem :=
      ⟨[(["c".toList], .directory), (["r".toList, "c".toList], .directory),
        (["d".toList, "r".toList, "c".toList], .file (Text.bytes "```js\n// a\n```\n".toList)),
        (["a".toList, "r".toList, "c".toList], .file (Text.bytes "x\n".toList))], ["c".toList]⟩
    let args : Arguments :=
      ⟨["r/d".toList], false, false, false, none, false, false, false, .text, false, false, none⟩
    let root : Path := ⟨"r/..".toList⟩
    let run (root : Path) := withArguments fs false { args with path? := some root }
    (run (fs.workingPath.join root)).ending.status = (run root).ending.status ∧
      (run (fs.workingPath.join root)).files = (run root).files ∧
      (run root).files.read ⟨"/c/r/d".toList⟩ = .ok "```js\n// a\n\nx\n```\n".toList := by
  intro fs args root run
  have hinputs : NamesDocuments fs root args.files :=
    List.forall_mem_singleton.2 ⟨⟨"d".toList, rfl⟩, rfl, by decide +kernel⟩
  have halike := ends_alike_of_normalize_eq fs false args none root (by decide +kernel)
    (by decide +kernel) (by decide +kernel) rfl hinputs (by decide +kernel) (by decide +kernel)
  exact ⟨halike.1, halike.2, by decide +kernel⟩

end Run

end FenceSync
