import FenceSync.Proofs.Files.Alike
import FenceSync.Proofs.Files.Entries
import FenceSync.Proofs.Path.Folding
import Mathlib.Data.List.Infix
/-!
# Paths read from the working directory

The working directory is called by the names of the directories that it lies in. A relative path
leads where it leads behind the path of the working directory, and a normal form leads to the same
file as the normal form of the path behind it.
-/
namespace FenceSync

namespace Path

open Component (Plain)

theorem foldl_push_names (names : List Bytes) (s : List Component) :
    (names.map Component.name).foldl push s = (names.map Component.name).reverse ++ s := by
  induction names generalizing s with
  | nil => rfl
  | cons name names ih =>
    rw [List.map_cons, List.foldl_cons, ih]
    simp [push]

theorem foldl_push_ups (n : Nat) (names : List Bytes) :
    (List.replicate n .up).foldl push (names.map Component.name ++ [.root]) =
      (names.drop n).map Component.name ++ [.root] := by
  induction n generalizing names with
  | zero => rfl
  | succ n ih =>
    rw [List.replicate_succ, List.foldl_cons]
    cases names with
    | nil => simpa [push] using ih []
    | cons name names => exact ih names

theorem Stacked.exists_names {s : List Component} (h : Stacked s) (hr : .root ∉ s) :
    ∃ (names : List Bytes) (n : Nat), s = names.map Component.name ++ List.replicate n .up := by
  induction h with
  | root => exact absurd List.mem_cons_self hr
  | ups n => exact ⟨[], n, rfl⟩
  | name name h ih =>
    obtain ⟨names, n, rfl⟩ := ih fun h => hr (List.mem_cons_of_mem _ h)
    exact ⟨name :: names, n, rfl⟩

theorem mem_intercalate_iff {x sep : UInt8} (hx : x ≠ sep) {ts : List Bytes} :
    x ∈ [sep].intercalate ts ↔ ∃ t ∈ ts, x ∈ t := by
  induction ts with
  | nil => simp [List.intercalate]
  | cons t ts ih =>
    cases ts with
    | nil => simp [List.intercalate]
    | cons u ts =>
      rw [List.intercalate_cons_cons, List.mem_append, List.mem_append, ih, List.mem_singleton]
      simp [hx]

end Path

namespace FileSystem

open Path (dot slash)
open Path.Component (Plain)

/-- The working directory and the directories that it lies in are there, under names. -/
def Grounded (fs : FileSystem) : Prop :=
  (∀ at_ ∈ fs.workingDirectory.tails, fs.get? at_ = some .directory) ∧
    ∀ name ∈ fs.workingDirectory, IsName name

instance (fs : FileSystem) : Decidable fs.Grounded :=
  inferInstanceAs (Decidable (_ ∧ ∀ name ∈ fs.workingDirectory, IsName name))

theorem Alike.grounded {fs fs' : FileSystem} (h : Alike fs fs') (hg : fs.Grounded) :
    fs'.Grounded := by
  rw [Grounded, h.workingDirectory]
  exact ⟨fun at_ hat => (h.get?_eq_directory_iff at_).2 (hg.1 at_ hat), hg.2⟩

variable {fs : FileSystem} {at_ : Location}

theorem follow_up {links n : Nat} (h : ∀ b ∈ at_.tails, fs.get? b = some .directory)
    (rest : List Bytes) :
    fs.follow links at_ (List.replicate n [dot, dot] ++ rest) =
      fs.follow links (at_.drop n) rest := by
  induction n generalizing at_ with
  | zero => rfl
  | succ n ih =>
    rw [List.replicate_succ, List.cons_append, follow_cons,
      if_neg (not_not.2 (h at_ ((List.mem_tails _ _).2 List.suffix_rfl))), if_neg (by decide),
      if_pos rfl, ih, List.drop_tail]
    intro b hb
    exact h b ((List.mem_tails _ _).2 (((List.mem_tails _ _).1 hb).trans (List.tail_suffix at_)))

theorem follow_names {links : Nat} (h : ∀ b ∈ at_.tails, fs.get? b = some .directory)
    (hn : ∀ name ∈ at_, IsName name) (rest : List Bytes) :
    fs.follow links [] (at_.reverse ++ rest) = fs.follow links at_ rest := by
  induction at_ generalizing rest with
  | nil => rfl
  | cons name at_ ih =>
    obtain ⟨hname, hnames⟩ := List.forall_mem_cons.1 hn
    rw [List.tails, List.forall_mem_cons] at h
    have hdir : fs.get? at_ = some .directory :=
      h.2 at_ ((List.mem_tails _ _).2 List.suffix_rfl)
    rw [List.reverse_cons, List.append_assoc, ih h.2 hnames, List.singleton_append, follow_cons,
      if_neg (not_not.2 hdir), if_neg hname.not_silent, if_neg hname.ne_up,
      if_neg (Nat.not_lt.2 hname.2.2), h.1]

theorem follow_silent {links : Nat} (rest : List Bytes) :
    fs.follow links [] ([] :: rest) = fs.follow links [] rest := by
  rw [follow_cons, if_neg (by simp [get?]), if_pos (by simp)]

/-- The parts of an absolute path in plain spelling lead where its names lead. -/
theorem follow_parts_ofComponents {links : Nat} {cs : List Path.Component}
    (h : ∀ c ∈ cs, Plain c) : fs.follow links [] (Path.ofComponents (.root :: cs)).parts =
      fs.follow links [] (cs.map Path.Component.bytes) := by
  have hparts : (Path.ofComponents (.root :: cs)).parts =
      [] :: Path.parts ⟨[slash].intercalate (cs.map Path.Component.bytes)⟩ :=
    List.splitOn_append_cons_self [] _
  rw [hparts, follow_silent]
  cases cs with
  | nil => exact follow_silent []
  | cons c cs => rw [Path.parts_ofNames (Path.not_mem_of_mem_map_bytes h) (by simp)]

theorem nul_mem_normalize_iff {p : Path} :
    0 ∈ p.normalize.bytes ↔ ∃ c ∈ p.stack, 0 ∈ c.bytes := by
  have hmem (c : Path.Component) : c ∈ p.stack ↔ c ∈ p.stack.reverse := List.mem_reverse.symm
  simp only [hmem, Path.normalize_eq]
  generalize p.stack.reverse = cs
  have hroot : 0 ∉ Path.Component.root.bytes := by decide
  unfold Path.ofComponents
  split
  · simp [Path.mem_intercalate_iff, hroot, slash]
  · simp [Path.mem_intercalate_iff, slash]

theorem workingPath_eq (fs : FileSystem) : fs.workingPath =
    Path.ofComponents (.root :: fs.workingDirectory.reverse.map .name) := by
  rw [workingPath, Path.ofComponents, List.map_map]
  congr 3
  exact (List.map_id _).symm

namespace Grounded

variable (hg : fs.Grounded) {p : Path}

include hg

theorem tails_drop (n : Nat) :
    ∀ b ∈ (fs.workingDirectory.drop n).tails, fs.get? b = some .directory := fun b hb =>
  hg.1 b ((List.mem_tails _ _).2 (((List.mem_tails _ _).1 hb).trans (List.drop_suffix n _)))

theorem isName_of_mem_drop {n : Nat} : ∀ name ∈ fs.workingDirectory.drop n, IsName name :=
  fun name hname => hg.2 name (List.drop_subset n _ hname)

theorem stack_workingPath :
    fs.workingPath.stack = fs.workingDirectory.map .name ++ [.root] := by
  have hplain : ∀ c ∈ fs.workingDirectory.reverse.map Path.Component.name, Plain c := by
    simpa using fun name hname => (hg.2 name hname).1
  rw [Path.stack, workingPath_eq, Path.components_ofComponents (.root hplain), List.foldl_cons,
    Path.foldl_push_names]
  simp [Path.push]

theorem parts_workingPath_join (hp : p.isAbsolute = false) :
    (fs.workingPath.join p).parts = [] :: fs.workingDirectory.reverse ++ p.parts := by
  cases hw : fs.workingDirectory with
  | nil =>
    rw [workingPath, hw, Path.join_eq hp]
    exact List.splitOn_append_cons_self (a := slash) [] p.bytes
  | cons name names =>
    have hne : fs.workingDirectory.reverse ≠ [] := by simp [hw]
    have hslash : ∀ t ∈ fs.workingDirectory.reverse, slash ∉ t := fun t ht =>
      (hg.2 t (List.mem_reverse.1 ht)).1.2
    have hparts : fs.workingPath.parts = [] :: fs.workingDirectory.reverse := by
      rw [workingPath]
      exact (List.splitOn_append_cons_self [] _).trans
        (congrArg _ (Path.parts_ofNames hslash hne))
    obtain ⟨init, hinit | hinit, hjoin, -⟩ := Path.exists_parts_join hp fs.workingPath
    · rw [hjoin, ← hinit, hparts, hw]
    · have hmem : [] ∈ fs.workingDirectory.reverse := by
        rw [hparts] at hinit
        have hlast := congrArg List.getLast? hinit
        rw [List.getLast?_concat, List.getLast?_cons_of_ne_nil hne] at hlast
        exact List.mem_of_getLast? hlast
      exact absurd rfl (hg.2 [] (List.mem_reverse.1 hmem)).1.bytes_ne_nil

theorem nul_mem_workingPath_join : 0 ∈ (fs.workingPath.join p).bytes ↔ 0 ∈ p.bytes := by
  cases hp : p.isAbsolute with
  | true => rw [Path.join_of_isAbsolute hp]
  | false =>
    have hnul : 0 ∉ fs.workingPath.bytes := by
      rw [workingPath, List.mem_cons, Path.mem_intercalate_iff (by decide)]
      rintro (h | ⟨t, ht, h⟩)
      · exact absurd h (by decide)
      · exact (hg.2 t (List.mem_reverse.1 ht)).2.1 h
    rw [Path.join_eq hp, List.mem_append, List.mem_append, Path.separator]
    split <;> simp [hnul, slash]

/-- A path leads where it leads behind the path of the working directory. -/
theorem reach_workingPath_join (hne : p.bytes ≠ [])
    (hshort : (fs.workingPath.join p).bytes.length < pathLimit) :
    fs.reach (fs.workingPath.join p) = fs.reach p := by
  cases hp : p.isAbsolute with
  | true => rw [Path.join_of_isAbsolute hp]
  | false =>
    have hwhole : fs.workingPath.bytes ≠ [] := List.cons_ne_nil _ _
    have hbytes := congrArg Path.bytes (Path.join_eq hp fs.workingPath)
    have hshort' : p.bytes.length < pathLimit := by
      rw [hbytes, List.length_append] at hshort
      exact Nat.lt_of_le_of_lt (Nat.le_add_left _ _) hshort
    have hne' : (fs.workingPath.join p).bytes ≠ [] := by
      rw [hbytes]
      exact List.append_ne_nil_of_right_ne_nil _ hne
    have habs : (fs.workingPath.join p).isAbsolute = true := Path.isAbsolute_join hp hwhole
    simp only [reach, hg.nul_mem_workingPath_join, hne, hne', Nat.not_le.2 hshort,
      Nat.not_le.2 hshort', habs, hp, hg.parts_workingPath_join hp, List.cons_append, if_true,
      Bool.false_eq_true, if_false, follow_silent, follow_names hg.1 hg.2]

theorem read_workingPath_join (hne : p.bytes ≠ [])
    (hshort : (fs.workingPath.join p).bytes.length < pathLimit) :
    fs.read (fs.workingPath.join p) = fs.read p := by
  simp only [read, readBytes, locate, hg.reach_workingPath_join hne hshort]

theorem isFile_workingPath_join (hne : p.bytes ≠ [])
    (hshort : (fs.workingPath.join p).bytes.length < pathLimit) :
    fs.isFile (fs.workingPath.join p) = fs.isFile p := by
  simp only [isFile, entryAt?, locate, hg.reach_workingPath_join hne hshort]

theorem write_workingPath_join (hne : p.bytes ≠ [])
    (hshort : (fs.workingPath.join p).bytes.length < pathLimit) (content : Bytes) :
    fs.write (fs.workingPath.join p) content = fs.write p content := by
  simp only [write, hg.reach_workingPath_join hne hshort]

/-- Behind the path of the working directory, a relative path folds into names of the working
directory in the place of its `..`. -/
theorem exists_stack_eq (hp : p.isAbsolute = false) : ∃ (names : List Bytes) (n : Nat),
    p.stack = names.map .name ++ List.replicate n .up ∧
      (fs.workingPath.join p).stack =
        names.map .name ++ ((fs.workingDirectory.drop n).map .name ++ [.root]) := by
  have hroot : .root ∉ p.stack := by
    rw [← List.mem_reverse, ← Path.components_normalize, ← Path.isAbsolute_iff,
      Path.isAbsolute_normalize, hp]
    exact Bool.false_ne_true
  obtain ⟨names, n, hs⟩ := (Path.stacked_stack p).exists_names hroot
  refine ⟨names, n, hs, ?_⟩
  have hfold := Path.foldl_push_reverse fs.workingPath.stack [] p.components
  rw [Path.stack_join hp, ← Path.foldl_push_components hp]
  refine hfold.symm.trans ?_
  rw [← Path.stack, hs, hg.stack_workingPath, List.reverse_append, List.reverse_replicate,
    List.foldl_append, Path.foldl_push_ups, ← List.map_reverse, Path.foldl_push_names,
    ← List.map_reverse, List.reverse_reverse]

theorem reach_normalize_of_relative (hp : p.isAbsolute = false) {names : List Bytes} {n : Nat}
    (hs : p.stack = names.map .name ++ List.replicate n .up) (hne : p.normalize.bytes ≠ [])
    (hshort : p.normalize.bytes.length < pathLimit) :
    fs.reach p.normalize = .ok at_ ↔ (∀ name ∈ names, 0 ∉ name) ∧
      fs.follow linkLimit (fs.workingDirectory.drop n) names.reverse = .ok at_ := by
  obtain ⟨body, hbody, hstack⟩ := Path.exists_stack_of_relative hp
  subst hstack
  have hplain : ∀ c ∈ p.stack.reverse, Plain c := fun c hc => hbody c (List.mem_reverse.1 hc)
  have hbytes : p.stack.reverse.map Path.Component.bytes =
      List.replicate n [dot, dot] ++ names.reverse := by
    simp [hs, Path.Component.bytes, Function.comp_def]
  have hparts : p.normalize.parts = List.replicate n [dot, dot] ++ names.reverse := by
    rw [Path.normalize_eq, Path.ofComponents_of_plain hplain] at hne ⊢
    rw [Path.parts_ofNames (Path.not_mem_of_mem_map_bytes hplain), hbytes]
    intro h
    simp [h] at hne
  have hnul : 0 ∉ p.normalize.bytes ↔ ∀ name ∈ names, 0 ∉ name := by
    simp [nul_mem_normalize_iff, hs, Path.Component.bytes, or_imp, forall_and, dot]
  rw [reach_eq_ok_iff, Path.isAbsolute_normalize, hp, hparts, hnul]
  simp only [ne_eq, hne, not_false_eq_true, hshort, true_and, Bool.false_eq_true, if_false,
    follow_up hg.1]

theorem reach_normalize_of_absolute (hp : p.isAbsolute = true) {names : List Bytes} {n : Nat}
    (hs : p.stack = names.map .name ++ ((fs.workingDirectory.drop n).map .name ++ [.root]))
    (hshort : p.normalize.bytes.length < pathLimit) :
    fs.reach p.normalize = .ok at_ ↔ (∀ name ∈ names, 0 ∉ name) ∧
      fs.follow linkLimit (fs.workingDirectory.drop n) names.reverse = .ok at_ := by
  obtain ⟨body, hbody, hstack⟩ := Path.exists_stack_of_absolute hp
  have hplain : ∀ c ∈ body.reverse, Plain c := fun c hc => hbody c (List.mem_reverse.1 hc)
  have hnormal : p.normalize = Path.ofComponents (.root :: body.reverse) := by
    rw [Path.normalize_eq, hstack, List.reverse_append]
    rfl
  have hbytes : body.reverse.map Path.Component.bytes =
      (fs.workingDirectory.drop n).reverse ++ names.reverse := by
    rw [hstack, ← List.append_assoc] at hs
    simp [List.append_cancel_right hs, Path.Component.bytes, Function.comp_def]
  have hnul : 0 ∉ p.normalize.bytes ↔ ∀ name ∈ names, 0 ∉ name := by
    have hdrop : ∀ name ∈ fs.workingDirectory.drop n, 0 ∉ name := fun name hname =>
      (hg.isName_of_mem_drop name hname).2.1
    simpa [-List.map_drop, nul_mem_normalize_iff, hs, Path.Component.bytes, or_imp, forall_and,
      slash] using fun _ => hdrop
  have hne : p.normalize.bytes ≠ [] := by
    rw [hnormal]
    exact List.cons_ne_nil _ _
  rw [reach_eq_ok_iff, Path.isAbsolute_normalize, hp, hnul]
  simp only [ne_eq, hne, not_false_eq_true, hshort, true_and, if_true]
  rw [hnormal, follow_parts_ofComponents hplain, hbytes,
    follow_names (hg.tails_drop n) hg.isName_of_mem_drop]

/-- A normal form and that of the path behind the working directory lead to the same text. -/
theorem read_normalize_workingPath_join (hshort : p.normalize.bytes.length < pathLimit)
    (hshort' : (fs.workingPath.join p).normalize.bytes.length < pathLimit) {t : Text} :
    fs.read (fs.workingPath.join p).normalize = .ok t ↔ fs.read p.normalize = .ok t := by
  cases hp : p.isAbsolute with
  | true => rw [Path.join_of_isAbsolute hp]
  | false =>
    obtain ⟨names, n, hs, hs'⟩ := hg.exists_stack_eq hp
    have habs : (fs.workingPath.join p).isAbsolute = true :=
      Path.isAbsolute_join hp (List.cons_ne_nil _ _)
    simp only [read_eq_ok_iff, hg.reach_normalize_of_absolute habs hs' hshort']
    by_cases hne : p.normalize.bytes = []
    · have hnil : p.stack = [] := by
        rw [← List.reverse_eq_nil_iff, ← Path.components_normalize, Path.components, Path.leader,
          Path.steps, Path.isAbsolute_normalize, hp, Path.parts, hne]
        rfl
      rw [hnil] at hs
      obtain ⟨hnames, hn⟩ := List.append_eq_nil_iff.1 hs.symm
      rw [List.map_eq_nil_iff] at hnames
      rw [List.replicate_eq_nil_iff] at hn
      subst hnames hn
      have hdir : fs.get? fs.workingDirectory = some .directory :=
        hg.tails_drop 0 _ ((List.mem_tails _ _).2 List.suffix_rfl)
      simp [follow_nil, reach_eq_ok_iff, hne, hdir]
    · simp only [hg.reach_normalize_of_relative hp hs hne hshort]

end Grounded

end FileSystem
end FenceSync
