import FenceSync.Discovery.Walk
import FenceSync.Proofs.Path.Components
import Mathlib.Logic.Basic
/-!
# Entries of directories

The path of a directory with the name of one of its entries behind it leads to that entry, and a
link on from there. So what such a path names can only be missing when the entry is a link or when
the path is too long to be followed.
-/
namespace FenceSync.FileSystem

open Path (dot slash)
open Path.Component (Plain)

def IsName (name : Bytes) : Prop :=
  Plain (.name name) ∧ 0 ∉ name ∧ name.length ≤ nameLimit

instance (name : Bytes) : Decidable (IsName name) :=
  inferInstanceAs (Decidable ((_ ∧ _) ∧ _ ∧ _))

def WellNamed (fs : FileSystem) : Prop :=
  ∀ x ∈ fs.entries, ∀ name ∈ x.1.head?, IsName name

instance (fs : FileSystem) : Decidable fs.WellNamed :=
  inferInstanceAs (Decidable (∀ x ∈ fs.entries, ∀ name ∈ x.1.head?, IsName name))

/-- The path is that of a directory with the name of a link in it behind. -/
def IsLink (fs : FileSystem) (p : Path) : Prop :=
  ∃ dir at_ name target, p = dir.join ⟨name⟩ ∧ fs.directoryAt? dir = some at_ ∧
    fs.get? (name :: at_) = some (.link target)

/-- The directory that an entry of a directory is, or leads to by its links alone. -/
def directoryIn? (fs : FileSystem) (at_ : Location) (name : Bytes) : Option Location :=
  match fs.follow linkLimit at_ [name] with
  | .error _ => none
  | .ok place => if fs.get? place = some .directory then some place else none

variable {fs : FileSystem} {dir : Path} {at_ : Location} {name : Bytes}

theorem mem_children_iff :
    name ∈ fs.children at_ ↔ ∃ e, (name :: at_, e) ∈ fs.entries := by
  simp only [children, List.mem_filterMap, Prod.exists]
  constructor
  · rintro ⟨place, e, hmem, h⟩
    split at h
    · split at h
      · next hparent =>
        cases h
        exact ⟨e, hparent ▸ hmem⟩
      · cases h
    · cases h
  · rintro ⟨e, hmem⟩
    exact ⟨_, e, hmem, if_pos rfl⟩

theorem WellNamed.isName (h : fs.WellNamed) (hn : name ∈ fs.children at_) : IsName name := by
  obtain ⟨e, he⟩ := mem_children_iff.1 hn
  exact h _ he name rfl

theorem exists_get?_of_mem_children (hn : name ∈ fs.children at_) :
    ∃ e, fs.get? (name :: at_) = some e := by
  obtain ⟨e, he⟩ := mem_children_iff.1 hn
  rw [get?, if_neg (List.cons_ne_nil _ _), ← Option.isSome_iff_exists, Option.isSome_iff_ne_none,
    ne_eq, List.lookup_eq_none_iff]
  exact fun h => absurd (h _ he) (by simp)

namespace IsName

variable (h : IsName name)

include h

theorem isAbsolute_eq_false : Path.isAbsolute ⟨name⟩ = false := by
  rw [Path.isAbsolute, beq_eq_false_iff_ne]
  intro hh
  obtain ⟨rest, rfl⟩ := List.head?_eq_some_iff.1 hh
  exact h.1.2 List.mem_cons_self

theorem parts_eq : Path.parts ⟨name⟩ = [name] := by
  have hparts : Path.parts ⟨[slash].intercalate [name]⟩ = [name] :=
    Path.parts_ofNames (List.forall_mem_singleton.2 h.1.2) (List.cons_ne_nil _ _)
  rwa [List.intercalate_singleton] at hparts

theorem steps_eq : Path.steps ⟨name⟩ = [.name name] := by
  rw [Path.steps, h.parts_eq]
  exact List.filterMap_cons_some h.1.1

theorem not_silent : ¬(name = [] || name = [dot]) = true := by
  simpa using ⟨h.1.bytes_ne_nil, h.1.bytes_ne_dot⟩

theorem ne_up : name ≠ [dot, dot] := by
  rintro rfl
  exact nomatch h.1.1

end IsName

theorem follow_nil (links : Nat) (here : Location) : fs.follow links here [] = .ok here := by
  cases links <;> rfl

theorem follow_cons (links : Nat) (here : Location) (part : Bytes) (rest : List Bytes) :
    fs.follow links here (part :: rest) =
      if fs.get? here ≠ some .directory then .error .notADirectory
      else if part = [] || part = [dot] then fs.follow links here rest
      else if part = [dot, dot] then fs.follow links here.tail rest
      else if nameLimit < part.length then .error .nameTooLong
      else match fs.get? (part :: here), links with
        | none, _ => if rest = [] then .ok (part :: here) else .error .notFound
        | some (.link _), 0 => .error .tooManyLinks
        | some (.link target), links + 1 =>
          if target.bytes = [] then .error .notFound
          else fs.follow links (if target.isAbsolute then [] else here) (target.parts ++ rest)
        | some _, _ => fs.follow links (part :: here) rest := by
  cases links with
  | zero =>
    rw [follow, followUntilLink]
    cases fs.get? (part :: here) with
    | none => rfl
    | some e => cases e <;> rfl
  | succ links =>
    rw [follow, followUntilLink]
    cases fs.get? (part :: here) with
    | none => rfl
    | some e => cases e <;> rfl

/-- More links may be followed than need be. -/
theorem follow_succ {links : Nat} {here : Location} {parts : List Bytes}
    (h : fs.follow links here parts = .ok at_) : fs.follow (links + 1) here parts = .ok at_ := by
  induction links using Nat.strongRecOn generalizing here parts with
  | ind links ihlinks =>
    induction parts generalizing here with
    | nil => rwa [follow_nil] at h ⊢
    | cons part parts ih =>
      rw [follow_cons] at h ⊢
      split at h
      · cases h
      next hhere =>
      rw [if_neg hhere]
      split at h
      · next hsilent =>
        rw [if_pos hsilent]
        exact ih h
      next hsilent =>
      rw [if_neg hsilent]
      split at h
      · next hup =>
        rw [if_pos hup]
        exact ih h
      next hup =>
      rw [if_neg hup]
      split at h
      · cases h
      next hlong =>
      rw [if_neg hlong]
      cases hg : fs.get? (part :: here) with
      | none => simpa only [hg] using h
      | some e =>
        cases e with
        | directory =>
          simp only [hg] at h ⊢
          exact ih h
        | file content =>
          simp only [hg] at h ⊢
          exact ih h
        | link target =>
          cases links with
          | zero =>
            simp only [hg] at h
            cases h
          | succ links =>
            simp only [hg] at h ⊢
            split at h
            · cases h
            · next ht =>
              rw [if_neg ht]
              exact ihlinks links (Nat.lt_succ_self links) h

theorem follow_le {left links : Nat} (hle : left ≤ links) {here : Location} {parts : List Bytes}
    (h : fs.follow left here parts = .ok at_) : fs.follow links here parts = .ok at_ := by
  induction hle with
  | refl => exact h
  | step _ ih => exact follow_succ ih

/-- On the way to a directory, the first parts lead somewhere by themselves, whatever parts stand
behind them. -/
theorem exists_follow_append {links : Nat} {here : Location} {parts rest : List Bytes}
    (h : fs.follow links here (parts ++ rest) = .ok at_) (hd : fs.get? at_ = some .directory) :
    ∃ left mid, left ≤ links ∧ fs.follow left mid rest = .ok at_ ∧
      ∀ rest', fs.follow links here (parts ++ rest') = fs.follow left mid rest' := by
  induction links using Nat.strongRecOn generalizing here parts with
  | ind links ihlinks =>
    induction parts generalizing here with
    | nil => exact ⟨links, here, Nat.le_refl _, h, fun _ => rfl⟩
    | cons part parts ih =>
      simp only [List.cons_append, follow_cons] at h ⊢
      by_cases hhere : fs.get? here ≠ some .directory
      · rw [if_pos hhere] at h
        cases h
      simp only [if_neg hhere] at h ⊢
      by_cases hsilent : (part = [] || part = [dot]) = true
      · simp only [if_pos hsilent] at h ⊢
        exact ih h
      simp only [if_neg hsilent] at h ⊢
      by_cases hup : part = [dot, dot]
      · simp only [if_pos hup] at h ⊢
        exact ih h
      simp only [if_neg hup] at h ⊢
      by_cases hlong : nameLimit < part.length
      · rw [if_pos hlong] at h
        cases h
      simp only [if_neg hlong] at h ⊢
      cases hg : fs.get? (part :: here) with
      | none =>
        simp only [hg] at h
        split at h
        · cases h
          rw [hg] at hd
          cases hd
        · cases h
      | some e =>
        cases e with
        | directory =>
          simp only [hg] at h ⊢
          exact ih h
        | file content =>
          simp only [hg] at h ⊢
          exact ih h
        | link target =>
          cases links with
          | zero =>
            simp only [hg] at h
            cases h
          | succ links =>
            simp only [hg] at h ⊢
            by_cases ht : target.bytes = []
            · rw [if_pos ht] at h
              cases h
            simp only [if_neg ht, ← List.append_assoc] at h ⊢
            obtain ⟨left, mid, hle, hmid⟩ := ihlinks links (Nat.lt_succ_self links) h
            exact ⟨left, mid, Nat.le_succ_of_le hle, hmid⟩

theorem follow_name_of_not_link {links : Nat} {e : Entry} (hd : fs.get? at_ = some .directory)
    (hn : IsName name) (he : fs.get? (name :: at_) = some e) (hlink : ∀ target, e ≠ .link target) :
    fs.follow links at_ [name] = .ok (name :: at_) := by
  rw [follow_cons, if_neg (not_not.2 hd), if_neg hn.not_silent, if_neg hn.ne_up,
    if_neg (Nat.not_lt.2 hn.2.2), he]
  cases e with
  | directory => exact follow_nil links _
  | file content => exact follow_nil links _
  | link target => exact absurd rfl (hlink target)

theorem reach_eq_ok_iff {p : Path} : fs.reach p = .ok at_ ↔
    0 ∉ p.bytes ∧ p.bytes ≠ [] ∧ p.bytes.length < pathLimit ∧
      fs.follow linkLimit (if p.isAbsolute then [] else fs.workingDirectory) p.parts = .ok at_ := by
  rw [reach]
  split
  · next h => simp [h]
  · next h =>
    split
    · next h' => simp [h']
    · next h' =>
      split
      · next hlong => simp [Nat.not_lt.2 hlong]
      · next hshort => simp [h, h', Nat.not_le.1 hshort]

theorem directoryAt?_eq_some_iff {p : Path} :
    fs.directoryAt? p = some at_ ↔ fs.reach p = .ok at_ ∧ fs.get? at_ = some .directory := by
  rw [directoryAt?, locate]
  cases fs.reach p with
  | error cause => simp
  | ok place =>
    cases hg : fs.get? place with
    | none => grind
    | some e => grind

/-- The parts of a directory's path lead to it also when an empty last part is taken off. -/
theorem exists_follow_init {links : Nat} {here : Location} {parts init : List Bytes}
    (h : fs.follow links here parts = .ok at_) (hd : fs.get? at_ = some .directory)
    (hparts : parts = init ∨ parts = init ++ [[]]) :
    ∃ left ≤ links, ∀ rest, fs.follow links here (init ++ rest) = fs.follow left at_ rest := by
  rcases hparts with rfl | rfl
  · rw [← List.append_nil parts] at h
    obtain ⟨left, mid, hle, hmid, hleads⟩ := exists_follow_append h hd
    rw [follow_nil] at hmid
    cases hmid
    exact ⟨left, hle, hleads⟩
  · obtain ⟨left, mid, hle, hmid, hleads⟩ := exists_follow_append h hd
    rw [follow_cons] at hmid
    split at hmid
    · cases hmid
    · rw [if_pos (by simp), follow_nil] at hmid
      cases hmid
      exact ⟨left, hle, hleads⟩

/-- The path of an entry goes on from the directory with the links that are left. -/
theorem exists_follow_join (hd : fs.directoryAt? dir = some at_) (hn : IsName name) :
    ∃ left ≤ linkLimit,
      fs.follow linkLimit (if (dir.join ⟨name⟩).isAbsolute then [] else fs.workingDirectory)
        (dir.join ⟨name⟩).parts = fs.follow left at_ [name] := by
  obtain ⟨hreach, hdir⟩ := directoryAt?_eq_some_iff.1 hd
  obtain ⟨-, hne, -, hfollow⟩ := reach_eq_ok_iff.1 hreach
  have habs := hn.isAbsolute_eq_false
  obtain ⟨init, hparts, hjoin, -⟩ := Path.exists_parts_join habs dir
  obtain ⟨left, hle, hleads⟩ := exists_follow_init hfollow hdir hparts
  exact ⟨left, hle, by rw [Path.isAbsolute_join habs hne, hjoin, hn.parts_eq, hleads]⟩

/-- A directory that the path of an entry leads to is where the entry leads by itself. -/
theorem directoryIn?_of_directoryAt?_join {place : Location} (hd : fs.directoryAt? dir = some at_)
    (hn : IsName name) (h : fs.directoryAt? (dir.join ⟨name⟩) = some place) :
    fs.directoryIn? at_ name = some place := by
  obtain ⟨left, hle, hjoin⟩ := exists_follow_join hd hn
  obtain ⟨hreach, hplace⟩ := directoryAt?_eq_some_iff.1 h
  obtain ⟨-, -, -, hfollow⟩ := reach_eq_ok_iff.1 hreach
  rw [directoryIn?, follow_le hle (hjoin ▸ hfollow)]
  exact if_pos hplace

theorem reach_join (hd : fs.directoryAt? dir = some at_) (hn : IsName name)
    (hshort : (dir.join ⟨name⟩).bytes.length < pathLimit) {e : Entry}
    (he : fs.get? (name :: at_) = some e) (hlink : ∀ target, e ≠ .link target) :
    fs.reach (dir.join ⟨name⟩) = .ok (name :: at_) := by
  obtain ⟨hreach, hdir⟩ := directoryAt?_eq_some_iff.1 hd
  obtain ⟨hnul, hne, -, -⟩ := reach_eq_ok_iff.1 hreach
  have habs := hn.isAbsolute_eq_false
  obtain ⟨left, -, hjoin⟩ := exists_follow_join hd hn
  refine reach_eq_ok_iff.2 ⟨?_, ?_, hshort, ?_⟩
  · rw [Path.join_eq habs, Path.separator]
    split <;> simp [hnul, hn.2.1, slash]
  · rw [Path.join_eq habs]
    simp [hne]
  · rw [hjoin, follow_name_of_not_link hdir hn he hlink]

/-- An entry that is no link is found under its path. -/
theorem entryAt?_join (hd : fs.directoryAt? dir = some at_) (hn : IsName name)
    (hshort : (dir.join ⟨name⟩).bytes.length < pathLimit) {e : Entry}
    (he : fs.get? (name :: at_) = some e) (hlink : ∀ target, e ≠ .link target) :
    fs.entryAt? (dir.join ⟨name⟩) = some e := by
  rw [entryAt?, locate, reach_join hd hn hshort he hlink]
  simp [he]

/-- What is neither a file nor a directory under its path is a link, or the path is too long. -/
theorem isLink_or_le_of_missing (hw : fs.WellNamed) (hd : fs.directoryAt? dir = some at_)
    (hn : name ∈ fs.children at_) (hf : fs.isFile (dir.join ⟨name⟩) = false)
    (hdir : fs.isDirectory (dir.join ⟨name⟩) = false) :
    fs.IsLink (dir.join ⟨name⟩) ∨ pathLimit ≤ (dir.join ⟨name⟩).bytes.length := by
  obtain ⟨e, he⟩ := exists_get?_of_mem_children hn
  by_cases hlink : ∃ target, e = .link target
  · obtain ⟨target, rfl⟩ := hlink
    exact .inl ⟨dir, at_, name, target, rfl, hd, he⟩
  · refine .inr (Nat.le_of_not_lt fun hshort => ?_)
    have hentry := entryAt?_join hd (hw.isName hn) hshort he (not_exists.1 hlink)
    cases e with
    | directory => simp [isDirectory, hentry] at hdir
    | file content => simp [isFile, hentry] at hf
    | link target => exact hlink ⟨target, rfl⟩

end FenceSync.FileSystem
