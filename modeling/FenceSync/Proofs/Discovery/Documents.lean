import FenceSync.Discovery.Basic
import FenceSync.Proofs.Discovery.Walk
import FenceSync.Proofs.Path.Order
import FenceSync.Proofs.Text.Utf8
import Mathlib.Data.List.Basic
/-!
# Which documents are found

A search for documents gives the inputs that name files, whatever the exclusion rules say of them,
and the entries below the root that the other inputs select. `Sought` says which paths these are
without following the search. The documents come in the order of their paths, each once, and it does
not matter in which order directories list their entries.
-/
namespace FenceSync.Discovery

section

variable (fs : FileSystem) (root : Path) (options : DiscoveryOptions)

/-- Neither the ignore file of the root, unless it is left unread, nor an exclusion rule leaves the
path out. -/
def Kept (p : Path) (isDirectory : Bool) : Prop :=
  (options.disableGitignore = false → (ignoreRules fs root).ignores p isDirectory = false) ∧
    ∀ rules, Exclusions.ofPatterns root options.exclude = .ok rules →
      rules.ignores p isDirectory = false

/-- The name is hidden or stands for dependencies or build output. -/
def Avoided (name : Bytes) : Prop :=
  name.head? = some Path.dot ∨ name = "node_modules".toList ∨ name = "target".toList

/-- The name of the path is to be avoided, and it is a text. -/
def Barred (p : Path) : Prop :=
  ∃ name, p.components.getLast? = some (.name name) ∧ Avoided name ∧ (Text.ofBytes? name).isSome

/-- An entry of the root, or of a directory among the entries that is neither barred nor left
out. -/
inductive Entry : Path → Prop
  | ofRoot {at_ name} (hd : fs.directoryAt? root = some at_) (hn : name ∈ fs.children at_) :
      Entry (root.join ⟨name⟩)
  | ofDirectory {dir at_ name} (h : Entry dir) (hd : fs.directoryAt? dir = some at_)
      (hb : ¬Barred dir) (hk : Kept fs root options dir true) (hn : name ∈ fs.children at_) :
      Entry (dir.join ⟨name⟩)

variable (inputs : List Text)

/-- An input that names no file is a glob for the path, from the root on or as a whole. -/
def Matched (p : Path) : Prop :=
  ∃ input ∈ inputs, fs.isFile (inputPath root input) = false ∧
    ∃ glob, Glob.ofPattern false (bare input) = .ok glob ∧
      (glob.accepts p.bytes = true ∨
        ∃ rest, root.relativeTo? p = some rest ∧ glob.accepts rest.bytes = true)

/-- The path is a document: an input that names a file, or a matched entry that is not left out and
no directory. -/
def Sought (p : Path) : Prop :=
  (∃ input ∈ inputs, fs.isFile (inputPath root input) = true ∧ p = inputPath root input) ∨
    (Entry fs root options p ∧ fs.isDirectory p = false ∧ Kept fs root options p false ∧
      Matched fs root inputs p)

end

/-- All paths that are wanted and no others, in strictly increasing order. -/
structure Complete (wanted : Path → Prop) (ds : List Path) : Prop where
  nonempty : ds ≠ []
  increasing : ds.Pairwise fun p q => Path.compare p q = .lt
  sought : ∀ d ∈ ds, wanted d
  mem_iff : ∀ p, (∃ d ∈ ds, d.same p) ↔ ∃ q, wanted q ∧ q.same p

variable {fs : FileSystem} {root : Path} {options : DiscoveryOptions} {inputs : List Text}

theorem isSkippedName_iff {name : Text} :
    Walk.isSkippedName name = true ↔ Avoided name := by
  have hdot : Text.startsWith ['.'] name = true ↔ name.head? = some '.' := by
    cases name <;> simp [Text.startsWith, Text.after?, eq_comm (a := '.')]
  rw [Walk.isSkippedName, Avoided, Text.head?_bytes_eq_some_iff (c := '.') (by decide),
    Text.bytes_inj, Text.bytes_inj]
  simp only [Bool.or_eq_true, decide_eq_true_eq, hdot, or_assoc]

theorem barred_iff {p : Path} : Barred p ↔ Walk.hasSkippedName p = true := by
  rw [Barred, Walk.hasSkippedName]
  split
  · next n hn =>
    simp only [hn, Option.some.injEq, Path.Component.name.injEq, exists_eq_left']
    cases hb : Text.ofBytes? n with
    | none => simp
    | some t =>
      rw [Text.ofBytes?_eq_some_iff.1 hb]
      simp [isSkippedName_iff]
  · next hn =>
    simp only [Bool.false_eq_true, iff_false, not_exists, not_and]
    exact fun n h => absurd h (hn n)

theorem directoryAt?_eq_none_iff {p : Path} :
    fs.directoryAt? p = none ↔ fs.isDirectory p = false := by
  rw [FileSystem.directoryAt?, FileSystem.isDirectory, FileSystem.entryAt?]
  cases fs.locate p with
  | error cause => simp
  | ok at_ => simp

theorem mem_globs_iff {patterns : List Text} {gs : List Glob} (h : globs patterns = .ok gs)
    (g : Glob) : g ∈ gs ↔ ∃ p ∈ patterns, Glob.ofPattern false (bare p) = .ok g := by
  induction patterns generalizing gs with
  | nil =>
    cases h
    simp
  | cons p ps ih =>
    rw [globs] at h
    split at h
    · cases h
    · next glob hp =>
      cases hps : globs ps with
      | error cause =>
        rw [hps] at h
        cases h
      | ok rest =>
        rw [hps] at h
        cases h
        simp [hp, ih hps, eq_comm]

theorem selects_iff {gs : List Glob} {p : Path} :
    selects gs root p = true ↔ ∃ g ∈ gs, g.accepts p.bytes = true ∨
      ∃ rest, root.relativeTo? p = some rest ∧ g.accepts rest.bytes = true := by
  rw [selects]
  cases root.relativeTo? p with
  | none => simp
  | some rest =>
    simp only [Bool.or_eq_true, List.any_eq_true, Option.some.injEq, exists_eq_left']
    grind

def filters (fs : FileSystem) (root : Path) (options : DiscoveryOptions) (gs : List Glob)
    (exclude : Exclusions) : Filters :=
  let gitignore := if options.disableGitignore then ⟨root, []⟩ else ignoreRules fs root
  ⟨fun p isDirectory => gitignore.ignores p isDirectory || exclude.ignores p isDirectory,
    selects gs root⟩

theorem matching_eq_ok_iff {patterns : List Text} {found : List Path} :
    matching fs root options patterns = .ok found ↔
      ∃ gs exclude, globs patterns = .ok gs ∧
        Exclusions.ofPatterns root options.exclude = .ok exclude ∧
        Walk.files fs (filters fs root options gs exclude) root = .ok found := by
  rw [matching, excludeRules]
  cases globs patterns with
  | error cause => simp
  | ok gs =>
    cases Exclusions.ofPatterns root options.exclude with
    | error cause => simp
    | ok exclude =>
      simp only [Except.ok.injEq, exists_and_left, exists_eq_left', filters]
      split
      · next h => simp [h]
      · next h => simp [h]

section

variable {gs : List Glob} {exclude : Exclusions}
  (hx : Exclusions.ofPatterns root options.exclude = .ok exclude)

include hx

theorem ignores_filters_iff {p : Path} {isDirectory : Bool} :
    (filters fs root options gs exclude).ignores p isDirectory = false ↔
      Kept fs root options p isDirectory := by
  have hnone : Exclusions.ignores ⟨root, []⟩ p isDirectory = false := rfl
  simp only [filters, Kept, hx, Bool.or_eq_false_iff, Except.ok.injEq, forall_eq']
  cases options.disableGitignore <;> simp [hnone]

theorem enters_filters_iff {p : Path} {at_ : Location} :
    Walk.Enters fs (filters fs root options gs exclude) p at_ ↔
      fs.directoryAt? p = some at_ ∧ ¬Barred p ∧ Kept fs root options p true := by
  rw [barred_iff, Bool.not_eq_true, ← ignores_filters_iff hx]
  exact ⟨fun h => ⟨h.directory, h.name, h.kept⟩, fun ⟨hd, hn, hk⟩ => ⟨hd, hn, hk⟩⟩

theorem entry_iff {p : Path} : Entry fs root options p ↔
    ∃ at_, fs.directoryAt? root = some at_ ∧
      Walk.Reached fs (filters fs root options gs exclude) (Walk.listing fs root at_) p := by
  constructor
  · intro h
    induction h with
    | ofRoot hd hn => exact ⟨_, hd, .start (List.mem_map_of_mem hn)⟩
    | ofDirectory h hd hb hk hn ih =>
      obtain ⟨at_, hr, hp⟩ := ih
      exact ⟨at_, hr, .inside hp ((enters_filters_iff hx).2 ⟨hd, hb, hk⟩) (List.mem_map_of_mem hn)⟩
  · rintro ⟨at_, hr, h⟩
    induction h with
    | start hp =>
      obtain ⟨name, hn, rfl⟩ := List.mem_map.1 hp
      exact .ofRoot hr hn
    | inside h hd hp ih =>
      obtain ⟨name, hn, rfl⟩ := List.mem_map.1 hp
      obtain ⟨hd, hb, hk⟩ := (enters_filters_iff hx).1 hd
      exact .ofDirectory ih hd hb hk hn

end

def named (fs : FileSystem) (root : Path) (inputs : List Text) : List Path :=
  (inputs.filter fun input => fs.isFile (inputPath root input)).map (inputPath root)

def patterns (fs : FileSystem) (root : Path) (inputs : List Text) : List Text :=
  inputs.filter fun input => !fs.isFile (inputPath root input)

theorem mem_named_iff {p : Path} : p ∈ named fs root inputs ↔
    ∃ input ∈ inputs, fs.isFile (inputPath root input) = true ∧ p = inputPath root input := by
  simp only [named, List.mem_map, List.mem_filter, and_assoc, eq_comm]

theorem selects_iff_matched {gs : List Glob} (h : globs (patterns fs root inputs) = .ok gs)
    {p : Path} : selects gs root p = true ↔ Matched fs root inputs p := by
  simp only [selects_iff, mem_globs_iff h, Matched, patterns, List.mem_filter, Bool.not_eq_true']
  grind

theorem mem_matching_iff {found : List Path}
    (h : matching fs root options (patterns fs root inputs) = .ok found) (p : Path) :
    p ∈ found ↔ Entry fs root options p ∧ fs.isDirectory p = false ∧
      Kept fs root options p false ∧ Matched fs root inputs p := by
  obtain ⟨gs, exclude, hgs, hx, hfiles⟩ := matching_eq_ok_iff.1 h
  rw [Walk.mem_files_iff hfiles, ← entry_iff hx, ← directoryAt?_eq_none_iff,
    ← ignores_filters_iff hx, ← selects_iff_matched hgs]
  exact ⟨fun ⟨hl, he⟩ => ⟨he, hl.directory, hl.kept, hl.selected⟩,
    fun ⟨he, hd, hk, hs⟩ => ⟨⟨hd, hk, hs⟩, he⟩⟩

def searched (fs : FileSystem) (root : Path) (inputs : List Text) (options : DiscoveryOptions) :
    Except Failure (List Path) :=
  if (patterns fs root inputs).isEmpty then .ok []
  else matching fs root options (patterns fs root inputs)

theorem mem_searched_iff {found : List Path} (h : searched fs root inputs options = .ok found)
    (p : Path) : p ∈ found ↔ Entry fs root options p ∧ fs.isDirectory p = false ∧
      Kept fs root options p false ∧ Matched fs root inputs p := by
  rw [searched] at h
  split at h
  · next he =>
    cases h
    rw [List.isEmpty_iff] at he
    refine ⟨fun hp => (nomatch hp), fun ⟨_, _, _, input, hi, hf, _⟩ => ?_⟩
    have hmem : input ∈ patterns fs root inputs := List.mem_filter.2 ⟨hi, by rw [hf]; rfl⟩
    rw [he] at hmem
    cases hmem
  · exact mem_matching_iff h p

theorem collect_eq (fs : FileSystem) (root : Path) (inputs : List Text)
    (options : DiscoveryOptions) : collect fs root inputs options =
      match searched fs root inputs options with
      | .error failure => .error failure
      | .ok found =>
        let documents := Path.sortDistinct (named fs root inputs ++ found)
        if documents.isEmpty then .error (.noInputFiles (Text.join ", ".toList inputs))
        else .ok documents :=
  rfl

/-- The documents are the named files and what the patterns find. -/
theorem collect_eq_ok_iff {ds : List Path} : collect fs root inputs options = .ok ds ↔
    ∃ found, searched fs root inputs options = .ok found ∧
      ds = Path.sortDistinct (named fs root inputs ++ found) ∧ ds ≠ [] := by
  rw [collect_eq]
  cases searched fs root inputs options with
  | error cause => simp
  | ok found =>
    simp only [Except.ok.injEq, exists_eq_left']
    split
    · next he =>
      rw [List.isEmpty_iff] at he
      simp [he]
    · next he =>
      rw [List.isEmpty_iff] at he
      constructor
      · intro h
        cases h
        exact ⟨rfl, he⟩
      · rintro ⟨rfl, -⟩
        rfl

/-- Where all inputs name files there is no search. -/
theorem collect_of_isFile (h : ∀ input ∈ inputs, fs.isFile (inputPath root input) = true)
    (options : DiscoveryOptions) : collect fs root inputs options =
      let documents := Path.sortDistinct (inputs.map (inputPath root))
      if documents.isEmpty then .error (.noInputFiles (Text.join ", ".toList inputs))
      else .ok documents := by
  have hnamed : named fs root inputs = inputs.map (inputPath root) := by
    rw [named, List.filter_eq_self.2 h]
  have hpatterns : patterns fs root inputs = [] :=
    List.filter_eq_nil_iff.2 fun input hi => by simp [h input hi]
  rw [collect_eq, searched, hpatterns, hnamed]
  simp only [List.isEmpty_nil, if_true, List.append_nil]

theorem mem_sought_iff {found : List Path} (h : searched fs root inputs options = .ok found)
    (p : Path) : p ∈ named fs root inputs ++ found ↔ Sought fs root options inputs p := by
  rw [List.mem_append, mem_named_iff, mem_searched_iff h, Sought]

theorem exists_same_iff {ps : List Path} {p : Path} :
    (∃ d ∈ ps, d.same p) ↔ p.components ∈ ps.map Path.components := by
  simp only [Path.same_iff, List.mem_map]

theorem complete_of_collect_eq_ok {ds : List Path}
    (h : collect fs root inputs options = .ok ds) :
    Complete (Sought fs root options inputs) ds := by
  obtain ⟨found, hs, rfl, hne⟩ := collect_eq_ok_iff.1 h
  refine ⟨hne, Path.increasing_sortDistinct _, fun d hd => ?_, fun p => ?_⟩
  · exact (mem_sought_iff hs d).1 (Path.mem_of_mem_sortDistinct hd)
  · rw [exists_same_iff, Path.mem_map_components_sortDistinct, ← exists_same_iff]
    simp only [mem_sought_iff hs]

variable {fs' : FileSystem}

theorem exists_matching_reordered (hr : fs.Reordered fs') {texts : List Text} {found : List Path}
    (h : matching fs root options texts = .ok found) :
    ∃ found', matching fs' root options texts = .ok found' ∧ found'.Perm found := by
  obtain ⟨gs, exclude, hgs, hx, hfiles⟩ := matching_eq_ok_iff.1 h
  have hfilters : filters fs' root options gs exclude = filters fs root options gs exclude := by
    simp only [filters, ignoreRules, hr.readBytes]
  obtain ⟨found', hfiles', hperm⟩ := Walk.exists_files_reordered hr hfiles
  exact ⟨found', matching_eq_ok_iff.2 ⟨gs, exclude, hgs, hx, hfilters ▸ hfiles'⟩, hperm⟩

theorem exists_searched_reordered (hr : fs.Reordered fs') {found : List Path}
    (h : searched fs root inputs options = .ok found) :
    ∃ found', searched fs' root inputs options = .ok found' ∧ found'.Perm found := by
  have hpatterns : patterns fs' root inputs = patterns fs root inputs := by
    simp only [patterns, hr.isFile]
  rw [searched] at h ⊢
  rw [hpatterns]
  by_cases he : (patterns fs root inputs).isEmpty
  · rw [if_pos he] at h ⊢
    exact ⟨found, h, .rfl⟩
  · rw [if_neg he] at h ⊢
    exact exists_matching_reordered hr h

theorem exists_collect_reordered (hr : fs.Reordered fs') {ds : List Path}
    (h : collect fs root inputs options = .ok ds) :
    ∃ ds', collect fs' root inputs options = .ok ds' ∧
      ds'.map Path.components = ds.map Path.components := by
  obtain ⟨found, hs, rfl, hne⟩ := collect_eq_ok_iff.1 h
  obtain ⟨found', hs', hperm⟩ := exists_searched_reordered hr hs
  have hnamed : named fs' root inputs = named fs root inputs := by
    simp only [named, hr.isFile]
  have hcomponents : (Path.sortDistinct (named fs root inputs ++ found')).map Path.components =
      (Path.sortDistinct (named fs root inputs ++ found)).map Path.components := by
    refine (Path.increasing_sortDistinct _).map_components_eq (Path.increasing_sortDistinct _) ?_
    intro cs
    rw [Path.mem_map_components_sortDistinct, Path.mem_map_components_sortDistinct]
    exact ((hperm.append_left _).map _).mem_iff
  refine ⟨_, collect_eq_ok_iff.2 ⟨found', hs', hnamed ▸ rfl, fun he => hne ?_⟩, hcomponents⟩
  rw [he] at hcomponents
  exact List.map_eq_nil_iff.1 hcomponents.symm

end FenceSync.Discovery
