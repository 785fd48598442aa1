import FenceSync.Proofs.Discovery.Documents
import FenceSync.Proofs.Files.Entries
/-!
# Finding all documents

A search finds all documents as far as it is told the truth about the entries. It asks for the
name of a directory as a text, so it enters a hidden directory whose name is no text, and it asks
what the whole path of an entry leads to, so it takes a directory for a document when its path
cannot be followed. Where the search meets neither, it finds the documents that are meant, and no
others.
-/
namespace FenceSync.Discovery

section

variable (fs : FileSystem) (root : Path) (options : DiscoveryOptions)

/-- The directory is meant to be searched: it is the root or, in a directory that is meant to be
searched, an entry that is or leads to a directory, with no name to be avoided and not left out. -/
inductive Through : Path → Location → Prop
  | root {at_} (hd : fs.directoryAt? root = some at_) : Through root at_
  | entry {dir at_ name place} (h : Through dir at_) (hn : name ∈ fs.children at_)
      (hd : fs.directoryIn? at_ name = some place) (ha : ¬Avoided name)
      (hk : Kept fs root options (dir.join ⟨name⟩) true) : Through (dir.join ⟨name⟩) place

/-- The path is meant to be a document: an input that names a file, or a matched entry of a directory
that is meant to be searched, which is not left out and no directory. -/
def Meant (inputs : List Text) (p : Path) : Prop :=
  (∃ input ∈ inputs, fs.isFile (inputPath root input) = true ∧ p = inputPath root input) ∨
    ∃ dir at_ name, Through fs root options dir at_ ∧ name ∈ fs.children at_ ∧
      p = dir.join ⟨name⟩ ∧ fs.directoryIn? at_ name = none ∧ Kept fs root options p false ∧
        Matched fs root inputs p

/-- The search goes astray at the path: it enters a directory with a name to be avoided, or it does
not see that an entry of a directory that it enters is or leads to a directory. -/
inductive Astray : Path → Prop
  | entered {p name} (h : Entry fs root options p) (hd : fs.isDirectory p = true)
      (hb : ¬Barred p) (hl : p.components.getLast? = some (.name name)) (ha : Avoided name) :
      Astray p
  | unseen {dir at_ name} (h : dir = root ∨ Entry fs root options dir)
      (hd : fs.directoryAt? dir = some at_) (hn : name ∈ fs.children at_)
      (hin : (fs.directoryIn? at_ name).isSome) (hp : fs.isDirectory (dir.join ⟨name⟩) = false) :
      Astray (dir.join ⟨name⟩)

end

variable {fs : FileSystem} {root p : Path} {options : DiscoveryOptions} {inputs : List Text}

theorem getLast?_components_join {name : Bytes} (h : FileSystem.IsName name) (dir : Path) :
    (dir.join ⟨name⟩).components.getLast? = some (.name name) := by
  rw [Path.components, Path.steps_join h.isAbsolute_eq_false, h.steps_eq, ← List.append_assoc,
    List.getLast?_concat]

section

variable (all : List Path)
  (hroot : ∀ at_ ∈ fs.directoryAt? root, Walk.listing fs root at_ ⊆ all)
  (hinside : ∀ dir ∈ all, ∀ at_ ∈ fs.directoryAt? dir, Walk.listing fs dir at_ ⊆ all)

include hroot hinside

/-- The entries stay among paths that hold those of the root and of each directory among them. -/
theorem Entry.mem_of_closed (h : Entry fs root options p) : p ∈ all := by
  induction h with
  | ofRoot hd hn => exact hroot _ hd (List.mem_map_of_mem hn)
  | ofDirectory _ hd _ _ hn ih => exact hinside _ ih _ hd (List.mem_map_of_mem hn)

/-- Among names that are texts, the search does not go astray if every path leads where its entry
does. -/
theorem not_astray_of_closed
    (htext : ∀ p ∈ all, ∀ name ∈ p.components.getLast?, (Text.ofBytes? name.bytes).isSome)
    (hseen : ∀ dir ∈ root :: all, ∀ at_ ∈ fs.directoryAt? dir, ∀ name ∈ fs.children at_,
      (fs.directoryIn? at_ name).isSome → fs.isDirectory (dir.join ⟨name⟩) = true) :
    ∀ p, ¬Astray fs root options p := by
  rintro p (⟨h, -, hb, hl, ha⟩ | ⟨h, hd, hn, hin, hp⟩)
  · exact hb ⟨_, hl, ha, htext p (h.mem_of_closed all hroot hinside) _ hl⟩
  · refine Bool.eq_false_iff.1 hp (hseen _ ?_ _ hd _ hn hin)
    rcases h with rfl | h
    · exact List.mem_cons_self
    · exact List.mem_cons_of_mem _ (h.mem_of_closed all hroot hinside)

end

/-- What leads the search astray is a name to be avoided that is no text, a link, or a path that is
too long. -/
theorem Astray.cause (hw : fs.WellNamed) (h : Astray fs root options p) :
    (∃ name, p.components.getLast? = some (.name name) ∧ Avoided name ∧
        Text.ofBytes? name = none) ∨
      fs.IsLink p ∨ FileSystem.pathLimit ≤ p.bytes.length := by
  obtain ⟨-, -, hb, hl, ha⟩ | @⟨dir, at_, name, -, hd, hn, hin, hp⟩ := h
  · refine .inl ⟨_, hl, ha, ?_⟩
    rw [← Option.not_isSome_iff_eq_none]
    exact fun ht => hb ⟨_, hl, ha, ht⟩
  · obtain ⟨e, he⟩ := FileSystem.exists_get?_of_mem_children hn
    by_cases hlink : ∃ target, e = .link target
    · obtain ⟨target, rfl⟩ := hlink
      exact .inr (.inl ⟨dir, at_, name, target, rfl, hd, he⟩)
    · refine .inr (.inr (Nat.le_of_not_lt fun hshort => ?_))
      have hname := hw.isName hn
      have hentry := FileSystem.entryAt?_join hd hname hshort he (not_exists.1 hlink)
      have hfollow : fs.follow FileSystem.linkLimit at_ [name] = .ok (name :: at_) :=
        FileSystem.follow_name_of_not_link (FileSystem.directoryAt?_eq_some_iff.1 hd).2 hname he
          (not_exists.1 hlink)
      cases e with
      | directory => simp [FileSystem.isDirectory, hentry] at hp
      | file content => simp [FileSystem.directoryIn?, hfollow, he] at hin
      | link target => exact hlink ⟨target, rfl⟩

section

variable (hw : fs.WellNamed) (hj : ∀ p, ¬Astray fs root options p)

include hw hj

theorem Entry.exists_through (h : Entry fs root options p) : ∃ dir at_ name,
    Through fs root options dir at_ ∧ (dir = root ∨ Entry fs root options dir) ∧
      fs.directoryAt? dir = some at_ ∧ name ∈ fs.children at_ ∧ p = dir.join ⟨name⟩ := by
  induction h with
  | ofRoot hd hn => exact ⟨_, _, _, .root hd, .inl rfl, hd, hn, rfl⟩
  | @ofDirectory dir at_ name h hd hb hk hn ih =>
    obtain ⟨above, place, called, ht, -, habove, hcalled, rfl⟩ := ih
    have hname := hw.isName hcalled
    have hin := FileSystem.directoryIn?_of_directoryAt?_join habove hname hd
    have hdir : fs.isDirectory (above.join ⟨called⟩) = true := by
      rw [← Bool.not_eq_false, ← directoryAt?_eq_none_iff, hd]
      exact Option.some_ne_none at_
    have ha : ¬Avoided called := fun ha =>
      hj _ (.entered h hdir hb (getLast?_components_join hname above) ha)
    exact ⟨_, at_, name, .entry ht hcalled hin ha hk, .inr h, hd, hn, rfl⟩

theorem Through.entries {dir : Path} {at_ : Location} (h : Through fs root options dir at_) :
    (dir = root ∨ Entry fs root options dir) ∧ fs.directoryAt? dir = some at_ ∧
      ∀ name ∈ fs.children at_, Entry fs root options (dir.join ⟨name⟩) := by
  induction h with
  | root hd => exact ⟨.inl rfl, hd, fun name hn => .ofRoot hd hn⟩
  | @entry dir at_ name place h hn hin ha hk ih =>
    obtain ⟨hdir, hd, hentries⟩ := ih
    have hname := hw.isName hn
    have hp : fs.directoryAt? (dir.join ⟨name⟩) = some place := by
      cases hat : fs.directoryAt? (dir.join ⟨name⟩) with
      | none =>
        exact absurd (.unseen hdir hd hn (by simp [hin]) (directoryAt?_eq_none_iff.1 hat)) (hj _)
      | some place' =>
        rw [← hin, FileSystem.directoryIn?_of_directoryAt?_join hd hname hat]
    have hb : ¬Barred (dir.join ⟨name⟩) := by
      rintro ⟨called, hl, hcalled, -⟩
      rw [getLast?_components_join hname dir] at hl
      cases hl
      exact ha hcalled
    exact ⟨.inr (hentries name hn), hp, fun inner hinner =>
      .ofDirectory (hentries name hn) hp hb hk hinner⟩

/-- Where the search does not go astray, what it seeks is what is meant. -/
theorem sought_iff_meant : Sought fs root options inputs p ↔ Meant fs root options inputs p := by
  refine or_congr_right ⟨?_, ?_⟩
  · rintro ⟨h, hd, hk, hm⟩
    obtain ⟨dir, at_, name, ht, hdir, hat, hn, rfl⟩ := h.exists_through hw hj
    refine ⟨dir, at_, name, ht, hn, rfl, ?_, hk, hm⟩
    rw [← Option.not_isSome_iff_eq_none]
    exact fun hin => hj _ (.unseen hdir hat hn hin hd)
  · rintro ⟨dir, at_, name, ht, hn, rfl, hin, hk, hm⟩
    obtain ⟨-, hat, hentries⟩ := ht.entries hw hj
    refine ⟨hentries name hn, directoryAt?_eq_none_iff.1 ?_, hk, hm⟩
    rw [Option.eq_none_iff_forall_ne_some]
    intro place hp
    rw [FileSystem.directoryIn?_of_directoryAt?_join hat (hw.isName hn) hp] at hin
    cases hin

end

end FenceSync.Discovery

namespace FenceSync

/-- The documents found are all that the search seeks and no others, in strictly increasing order,
and where it does not go astray they are those that are meant. They do not depend on the order in
which directories list their entries. -/
theorem collect_finds_all (fs : FileSystem) (root : Path) (inputs : List Text)
    (options : DiscoveryOptions) (ds : List Path)
    (h : Discovery.collect fs root inputs options = .ok ds) :
    Discovery.Complete (Discovery.Sought fs root options inputs) ds ∧
      (fs.WellNamed → (∀ p, ¬Discovery.Astray fs root options p) →
        Discovery.Complete (Discovery.Meant fs root options inputs) ds) ∧
      ∀ fs', fs.Reordered fs' →
        ∃ ds', Discovery.collect fs' root inputs options = .ok ds' ∧
          ds'.map Path.components = ds.map Path.components := by
  have hc := Discovery.complete_of_collect_eq_ok h
  refine ⟨hc, fun hw hj => ?_, fun _ hr => Discovery.exists_collect_reordered hr h⟩
  have hsame : Discovery.Sought fs root options inputs = Discovery.Meant fs root options inputs :=
    funext fun _ => propext (Discovery.sought_iff_meant hw hj)
  rwa [← hsame]

/-- One input names a file under a barred name and one a file that is left out; the pattern finds a
file through a link, but none under a barred name and none that the ignore file or a rule leaves out,
by itself or with its directory. -/
theorem collect_finds_all_sample :
    let fs : FileSystem :=
      ⟨[(["d".toList], .directory),
        ([".gitignore".toList, "d".toList], .file (Text.bytes "/x.md\n*.old.md\nout/\n".toList)),
        (["x.md".toList, "d".toList], .file []),
        (["y.old.md".toList, "d".toList], .file []),
        (["b.md".toList, "d".toList], .file []),
        (["a".toList, "d".toList], .link ⟨"/e".toList⟩),
        ([".h".toList, "d".toList], .directory),
        (["c.md".toList, ".h".toList, "d".toList], .file []),
        (["out".toList, "d".toList], .directory),
        (["o.md".toList, "out".toList, "d".toList], .file []),
        (["target".toList, "d".toList], .directory),
        (["t.md".toList, "target".toList, "d".toList], .file []),
        (["e".toList], .directory),
        (["n.md".toList, "e".toList], .file [])], ["d".toList]⟩
    let root : Path := ⟨"/d".toList⟩
    let inputs : List Text := ["x.md".toList, "./.h/c.md".toList, "**/*.md".toList]
    let options : DiscoveryOptions := ⟨["b.md".toList], false⟩
    let ds : List Path := [⟨"/d/.h/c.md".toList⟩, ⟨"/d/a/n.md".toList⟩, ⟨"/d/x.md".toList⟩]
    Discovery.collect fs root inputs options = .ok ds ∧
      Discovery.Complete (Discovery.Sought fs root options inputs) ds ∧
      Discovery.Complete (Discovery.Meant fs root options inputs) ds ∧
      ∀ fs', fs.Reordered fs' →
        ∃ ds', Discovery.collect fs' root inputs options = .ok ds' ∧
          ds'.map Path.components = ds.map Path.components := by
  intro fs root inputs options ds
  have h : Discovery.collect fs root inputs options = .ok ds := by decide +kernel
  have hw : fs.WellNamed := by decide +kernel
  let all : List Path :=
    [⟨"/d/.gitignore".toList⟩, ⟨"/d/x.md".toList⟩, ⟨"/d/y.old.md".toList⟩, ⟨"/d/b.md".toList⟩,
      ⟨"/d/a".toList⟩, ⟨"/d/.h".toList⟩, ⟨"/d/out".toList⟩, ⟨"/d/target".toList⟩,
      ⟨"/d/a/n.md".toList⟩, ⟨"/d/.h/c.md".toList⟩, ⟨"/d/out/o.md".toList⟩,
      ⟨"/d/target/t.md".toList⟩]
  have hstraight : ∀ p, ¬Discovery.Astray fs root options p :=
    Discovery.not_astray_of_closed all (by decide +kernel) (by decide +kernel)
      (by decide +kernel) (by decide +kernel)
  obtain ⟨hsought, hmeant, horder⟩ := collect_finds_all fs root inputs options ds h
  exact ⟨h, hsought, hmeant hw hstraight, horder⟩

/-- A document is found in a hidden directory whose name is no text. -/
theorem not_collect_finds_all : ¬∀ (fs : FileSystem) (root : Path) (inputs : List Text)
    (options : DiscoveryOptions) (ds : List Path), fs.WellNamed →
    Discovery.collect fs root inputs options = .ok ds →
      Discovery.Complete (Discovery.Meant fs root options inputs) ds := by
  intro h
  let hidden : Bytes := [0x2e, 0xff]
  let fs : FileSystem := ⟨[([hidden], .directory), (["a.md".toList, hidden], .file [])], []⟩
  let root : Path := ⟨".".toList⟩
  let options : DiscoveryOptions := ⟨[], false⟩
  have hfound : Discovery.collect fs root ["**/*.md".toList] options =
      .ok [(root.join ⟨hidden⟩).join ⟨"a.md".toList⟩] := by decide +kernel
  have hthrough : ∀ dir at_, Discovery.Through fs root options dir at_ → dir = root ∧ at_ = [] := by
    intro dir at_ ht
    induction ht with
    | root hd => exact ⟨rfl, Option.some.inj (hd.symm.trans (by decide +kernel))⟩
    | entry _ hn _ ha _ ih =>
      obtain ⟨rfl, rfl⟩ := ih
      have hn : _ = hidden := List.mem_singleton.1 hn
      exact absurd (.inl (hn ▸ rfl)) ha
  rcases (h fs root _ options _ (by decide +kernel) hfound).sought _ List.mem_cons_self with
    ⟨input, hi, hf, -⟩ | ⟨dir, at_, name, ht, hn, -, hin, -⟩
  · cases List.mem_singleton.1 hi
    revert hf
    decide +kernel
  · obtain ⟨rfl, rfl⟩ := hthrough dir at_ ht
    cases List.mem_singleton.1 hn
    revert hin
    decide +kernel

end FenceSync
