import FenceSync.Proofs.CommandLine.Reports
import FenceSync.Proofs.Discovery.Documents
import FenceSync.Proofs.Files.Entries
/-!
# Documents that are no files

An input that names no file is a pattern, and the walk lists what it selects among all entries that
are no directories. So a link that leads to no file is a document as soon as a pattern selects it,
and a run over the documents stops there. Pipes, sockets and devices would be documents in the same
way; that every stray is a link or has too long a path holds because the file systems here have none
of them.
-/
namespace FenceSync

namespace Discovery

/-- The patterns select the entry, though it is neither a file nor a directory. -/
structure Stray (fs : FileSystem) (root : Path) (options : DiscoveryOptions) (inputs : List Text)
    (p : Path) : Prop where
  entry : Entry fs root options p
  kept : Kept fs root options p false
  matched : Matched fs root inputs p
  missing : fs.isFile p = false
  notDirectory : fs.isDirectory p = false

variable {fs : FileSystem} {root p q : Path} {options : DiscoveryOptions} {inputs : List Text}

theorem Stray.isLink_or_le (hw : fs.WellNamed) (h : Stray fs root options inputs p) :
    fs.IsLink p ∨ FileSystem.pathLimit ≤ p.bytes.length := by
  obtain ⟨he, -, -, hf, hdir⟩ := h
  cases he with
  | ofRoot hd hn => exact FileSystem.isLink_or_le_of_missing hw hd hn hf hdir
  | ofDirectory _ hd _ _ hn => exact FileSystem.isLink_or_le_of_missing hw hd hn hf hdir

/-- The path of an entry is that of the root with names behind it. -/
theorem Entry.exists_names (hw : fs.WellNamed) (h : Entry fs root options p) :
    ∃ names : List Bytes, p = names.foldl (fun dir name => dir.join ⟨name⟩) root ∧
      p.steps = root.steps ++ names.map .name := by
  induction h with
  | @ofRoot at_ name hd hn =>
    have hname := hw.isName hn
    refine ⟨[name], rfl, ?_⟩
    rw [Path.steps_join hname.isAbsolute_eq_false, hname.steps_eq]
    rfl
  | @ofDirectory dir at_ name h hd hb hk hn ih =>
    obtain ⟨names, hdir, hsteps⟩ := ih
    have hname := hw.isName hn
    refine ⟨names ++ [name], ?_, ?_⟩
    · rw [List.foldl_append, ← hdir]
      rfl
    · rw [Path.steps_join hname.isAbsolute_eq_false, hname.steps_eq, hsteps, List.map_append,
        List.append_assoc]
      rfl

/-- No two entries differ in their spelling alone. -/
theorem Entry.eq_of_same (hw : fs.WellNamed) (hp : Entry fs root options p)
    (hq : Entry fs root options q) (h : p.same q) : p = q := by
  obtain ⟨names, rfl, hsteps⟩ := hp.exists_names hw
  obtain ⟨names', rfl, hsteps'⟩ := hq.exists_names hw
  have hnames : names.map Path.Component.name = names'.map Path.Component.name := by
    rw [← List.append_cancel_left_eq root.steps, ← hsteps, ← hsteps', Path.steps_eq, Path.steps_eq,
      Path.same_iff.1 h]
  rw [List.map_injective_iff.2 (fun _ _ => Path.Component.name.inj) hnames]

/-- The path is another spelling of an input that names a file. -/
def Named (fs : FileSystem) (root : Path) (inputs : List Text) (p : Path) : Prop :=
  ∃ input ∈ inputs, fs.isFile (inputPath root input) = true ∧ (inputPath root input).same p

theorem isFile_of_mem_named (h : p ∈ named fs root inputs) : fs.isFile p = true := by
  obtain ⟨input, -, hf, rfl⟩ := mem_named_iff.1 h
  exact hf

variable {ds : List Path} (h : collect fs root inputs options = .ok ds)

include h

/-- A document that is no file is a stray entry that no input names. -/
theorem stray_of_mem (hd : p ∈ ds) (hf : fs.isFile p = false) :
    Stray fs root options inputs p ∧ ¬Named fs root inputs p := by
  obtain ⟨found, hs, rfl, -⟩ := collect_eq_ok_iff.1 h
  have hnot : p ∉ named fs root inputs := fun hm => by simp [isFile_of_mem_named hm] at hf
  rcases List.mem_append.1 (Path.mem_of_mem_sortDistinct hd) with hm | hm
  · exact absurd hm hnot
  · obtain ⟨he, hdir, hk, hm⟩ := (mem_searched_iff hs p).1 hm
    refine ⟨⟨he, hk, hm, hf, hdir⟩, ?_⟩
    rintro ⟨input, hi, hfile, hsame⟩
    exact hnot (Path.mem_left_of_mem_sortDistinct hd (mem_named_iff.2 ⟨input, hi, hfile, rfl⟩) hsame)

theorem mem_of_stray (hw : fs.WellNamed) (hp : Stray fs root options inputs p)
    (hn : ¬Named fs root inputs p) : p ∈ ds := by
  have hc := complete_of_collect_eq_ok h
  obtain ⟨d, hd, hsame⟩ := (hc.mem_iff p).2
    ⟨p, .inr ⟨hp.entry, hp.notDirectory, hp.kept, hp.matched⟩, Path.same_iff.2 rfl⟩
  rcases hc.sought d hd with ⟨input, hi, hf, rfl⟩ | ⟨he, -⟩
  · exact absurd ⟨input, hi, hf, hsame⟩ hn
  · rwa [← he.eq_of_same hw hp.entry hsame]

end Discovery

/-- A run over documents of which one is no file ends with the status of a failure. -/
theorem Run.status_process_of_not_isFile {fs : FileSystem} {documents : List Path} {d : Path}
    (args : Arguments) (r : Reporter) (options : EmbedOptions) (root : Path) (hd : d ∈ documents)
    (hf : fs.isFile d = false) : (process args r options root fs documents).ending.status = 2 := by
  rw [status_process, if_neg]
  intro hall
  have hok := hall d hd
  cases hr : fs.read d with
  | error cause =>
    rw [hr] at hok
    cases hok
  | ok t =>
    rw [FileSystem.isFile_of_read_eq_ok hr] at hf
    cases hf

/-- All documents are files exactly when the patterns select no entry that is neither a file nor a
directory, other than one that an input names in another spelling. Those entries are the documents
that are no files, and a run over the documents fails at each; among file systems without special
files they are links or have too long a path. -/
theorem documents_are_files_iff (fs : FileSystem) (root : Path) (inputs : List Text)
    (options : DiscoveryOptions) (ds : List Path) (hw : fs.WellNamed)
    (h : Discovery.collect fs root inputs options = .ok ds) :
    ((∀ d ∈ ds, fs.isFile d = true) ↔
        ∀ p, Discovery.Stray fs root options inputs p → Discovery.Named fs root inputs p) ∧
      (∀ p, p ∈ ds ∧ fs.isFile p = false ↔
        Discovery.Stray fs root options inputs p ∧ ¬Discovery.Named fs root inputs p) ∧
      ∀ d ∈ ds, fs.isFile d = false →
        (fs.IsLink d ∨ FileSystem.pathLimit ≤ d.bytes.length) ∧
          ∀ args reporter embedding base,
            (Run.process args reporter embedding base fs ds).ending.status = 2 := by
  have hiff (p : Path) : p ∈ ds ∧ fs.isFile p = false ↔
      Discovery.Stray fs root options inputs p ∧ ¬Discovery.Named fs root inputs p :=
    ⟨fun ⟨hd, hf⟩ => Discovery.stray_of_mem h hd hf,
      fun ⟨hp, hn⟩ => ⟨Discovery.mem_of_stray h hw hp hn, hp.missing⟩⟩
  refine ⟨⟨fun hall p hp => ?_, fun hall d hd => ?_⟩, hiff, fun d hd hf => ⟨?_, ?_⟩⟩
  · by_contra hn
    obtain ⟨hd, hf⟩ := (hiff p).2 ⟨hp, hn⟩
    rw [hall p hd] at hf
    cases hf
  · by_contra hf
    obtain ⟨hp, hn⟩ := (hiff d).1 ⟨hd, Bool.eq_false_iff.2 hf⟩
    exact hn (hall d hp)
  · exact (Discovery.stray_of_mem h hd hf).1.isLink_or_le hw
  · exact fun args reporter embedding base =>
      Run.status_process_of_not_isFile args reporter embedding base hd hf

/-- Of two links, one leads to a file and one nowhere. -/
theorem documents_are_files_iff_sample :
    let fs : FileSystem :=
      ⟨[(["a.md".toList], .link ⟨"b.txt".toList⟩),
        (["b.txt".toList], .file []),
        (["c.md".toList], .link ⟨"gone.md".toList⟩)], []⟩
    let root : Path := ⟨".".toList⟩
    let inputs : List Text := ["*.md".toList]
    let options : DiscoveryOptions := ⟨[], false⟩
    let ds : List Path := [⟨"./a.md".toList⟩, ⟨"./c.md".toList⟩]
    fs.WellNamed ∧ Discovery.collect fs root inputs options = .ok ds ∧
      fs.isFile ⟨"./a.md".toList⟩ = true ∧ fs.isFile ⟨"./c.md".toList⟩ = false ∧
      ((∀ d ∈ ds, fs.isFile d = true) ↔
        ∀ p, Discovery.Stray fs root options inputs p → Discovery.Named fs root inputs p) ∧
      (∀ p, p ∈ ds ∧ fs.isFile p = false ↔
        Discovery.Stray fs root options inputs p ∧ ¬Discovery.Named fs root inputs p) ∧
      ∀ d ∈ ds, fs.isFile d = false →
        (fs.IsLink d ∨ FileSystem.pathLimit ≤ d.bytes.length) ∧
          ∀ args reporter embedding base,
            (Run.process args reporter embedding base fs ds).ending.status = 2 := by
  intro fs root inputs options ds
  have hw : fs.WellNamed := by decide +kernel
  have h : Discovery.collect fs root inputs options = .ok ds := by decide +kernel
  exact ⟨hw, h, by decide +kernel, by decide +kernel,
    documents_are_files_iff fs root inputs options ds hw h⟩

/-- A link that leads nowhere is among the documents that a pattern finds. -/
theorem not_documents_are_files : ¬∀ (fs : FileSystem) (root : Path) (inputs : List Text)
    (options : DiscoveryOptions) (ds : List Path), fs.WellNamed →
    Discovery.collect fs root inputs options = .ok ds → ∀ d ∈ ds, fs.isFile d = true := by
  intro h
  let fs : FileSystem :=
    ⟨[(["a.md".toList], .link ⟨"gone.md".toList⟩),
      (["b.md".toList], .file [])], []⟩
  have hw : fs.WellNamed := by decide +kernel
  have hfound : Discovery.collect fs ⟨".".toList⟩ ["*.md".toList] ⟨[], false⟩ =
      .ok [⟨"./a.md".toList⟩, ⟨"./b.md".toList⟩] := by decide +kernel
  have hfile := h fs _ _ _ _ hw hfound ⟨"./a.md".toList⟩ List.mem_cons_self
  revert hfile
  decide +kernel

/-- The run has written the document in front of the link when it stops. -/
example :
    let fs : FileSystem :=
      ⟨[(["a.md".toList], .file (Text.bytes "```js\n// a.js\n```\n".toList)),
        (["a.js".toList], .file (Text.bytes "x\n".toList)),
        (["b.md".toList], .link ⟨"gone.md".toList⟩)], []⟩
    let run := Run.start fs false ["*.md".toList]
    run.writes = [(⟨"/a.md".toList⟩, "```js\n// a.js\n\nx\n```\n".toList)] ∧
      run.ending.status = 2 := by
  decide +kernel

end FenceSync
