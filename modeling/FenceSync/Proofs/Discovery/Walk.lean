import FenceSync.Discovery.Walk
import FenceSync.Proofs.Files.Alike
/-!
# What a walk lists

`Visits` tells which directories a walk opens and which files it lists when nothing stops it at a
directory that it knows already. A walk succeeds exactly when the directories opened are all
different, and it has then listed exactly the files that it is to select among the entries that can
be reached. The order in which directories list their entries changes the order of the files only.
-/
namespace FenceSync

/-- File systems that differ only in the order in which directories list their entries. -/
structure FileSystem.Reordered (fs fs' : FileSystem) : Prop where
  workingDirectory : fs'.workingDirectory = fs.workingDirectory
  get? : ∀ at_, fs'.get? at_ = fs.get? at_
  children : ∀ dir, (fs'.children dir).Perm (fs.children dir)

namespace FileSystem.Reordered

variable {fs fs' : FileSystem} (h : fs.Reordered fs')

include h

theorem alike : fs.Alike fs' := ⟨h.workingDirectory, fun at_ => .inl (h.get? at_)⟩

theorem directoryAt? (p : Path) : fs'.directoryAt? p = fs.directoryAt? p := by
  simp only [FileSystem.directoryAt?, h.alike.locate, h.get?]

theorem readBytes (p : Path) : fs'.readBytes p = fs.readBytes p := by
  simp only [FileSystem.readBytes, h.alike.locate, h.get?]

theorem isFile (p : Path) : fs'.isFile p = fs.isFile p := by
  simp only [FileSystem.isFile, FileSystem.entryAt?, h.alike.locate, h.get?]

end FileSystem.Reordered

namespace Walk

variable (fs : FileSystem) (filters : Filters)

structure Enters (p : Path) (at_ : Location) : Prop where
  directory : fs.directoryAt? p = some at_
  name : hasSkippedName p = false
  kept : filters.ignores p true = false

structure Lists (p : Path) : Prop where
  directory : fs.directoryAt? p = none
  kept : filters.ignores p false = false
  selected : filters.selects p = true

/-- The directories opened and the files listed on the way through pending entries. -/
inductive Visits : List Path → List Location → List Path → Prop
  | done : Visits [] [] []
  | list {p pending opened found} (hp : Lists fs filters p) (h : Visits pending opened found) :
      Visits (p :: pending) opened (p :: found)
  | leave {p pending opened found} (hp : ¬Lists fs filters p)
      (hd : ∀ at_, ¬Enters fs filters p at_) (h : Visits pending opened found) :
      Visits (p :: pending) opened found
  | enter {p at_ pending opened found} (hp : Enters fs filters p at_)
      (h : Visits (listing fs p at_ ++ pending) opened found) :
      Visits (p :: pending) (at_ :: opened) found

/-- An entry that can be reached from some entries through directories that are opened. -/
inductive Reached (start : List Path) : Path → Prop
  | start {p} (hp : p ∈ start) : Reached start p
  | inside {dir at_ p} (h : Reached start dir) (hd : Enters fs filters dir at_)
      (hp : p ∈ listing fs dir at_) : Reached start p

variable {fs filters} {visited : List Location} {pending : List Path} {p q : Path}
  {at_ : Location}

theorem visit_list (h : Lists fs filters p) :
    visit fs filters visited (p :: pending) = (visit fs filters visited pending).map (p :: ·) := by
  rw [visit]
  split
  · simp [h.kept, h.selected]
  · next at_ hd => cases h.directory.symm.trans hd

theorem Lists.of_not_left_out (hd : fs.directoryAt? p = none)
    (hc : ¬(filters.ignores p false || !filters.selects p) = true) : Lists fs filters p := by
  simp only [Bool.or_eq_true, Bool.not_eq_true', not_or, Bool.not_eq_true, Bool.not_eq_false] at hc
  exact ⟨hd, hc.1, hc.2⟩

theorem Enters.of_not_left_out (hd : fs.directoryAt? p = some at_)
    (hc : ¬(hasSkippedName p || filters.ignores p true) = true) : Enters fs filters p at_ := by
  simp only [Bool.or_eq_true, not_or, Bool.not_eq_true] at hc
  exact ⟨hd, hc.1, hc.2⟩

theorem visit_leave (hp : ¬Lists fs filters p) (hd : ∀ at_, ¬Enters fs filters p at_) :
    visit fs filters visited (p :: pending) = visit fs filters visited pending := by
  rw [visit]
  split
  · next h =>
    split
    · rfl
    · next hc => exact absurd (.of_not_left_out h hc) hp
  · next at_ h =>
    split
    · rfl
    · next hc => exact absurd (.of_not_left_out h hc) (hd at_)

theorem visit_enter (h : Enters fs filters p at_) :
    visit fs filters visited (p :: pending) =
      if at_ ∈ visited then .error p
      else visit fs filters (at_ :: visited) (listing fs p at_ ++ pending) := by
  rw [visit]
  split
  · next hd => cases h.directory.symm.trans hd
  · next at_' hd =>
    cases h.directory.symm.trans hd
    simp [h.name, h.kept]

theorem exists_visits_of_visit_eq_ok {found : List Path}
    (h : visit fs filters visited pending = .ok found) :
    ∃ opened, Visits fs filters pending opened found ∧ opened.Nodup ∧
      ∀ at_ ∈ opened, at_ ∉ visited := by
  fun_induction visit fs filters visited pending generalizing found with
  | case1 =>
    cases h
    exact ⟨[], .done, List.nodup_nil, by simp⟩
  | case2 visited p pending hd hc ih =>
    obtain ⟨opened, hv, hn, hf⟩ := ih h
    refine ⟨opened, .leave (fun hp => ?_) (fun at_ hp => ?_) hv, hn, hf⟩
    · simp [hp.kept, hp.selected] at hc
    · cases hd.symm.trans hp.directory
  | case3 visited p pending hd hc ih =>
    cases hr : visit fs filters visited pending with
    | error e =>
      rw [hr] at h
      cases h
    | ok rest =>
      rw [hr] at h
      cases h
      obtain ⟨opened, hv, hn, hf⟩ := ih hr
      exact ⟨opened, .list (.of_not_left_out hd hc) hv, hn, hf⟩
  | case4 visited p pending at_ hd hc ih =>
    obtain ⟨opened, hv, hn, hf⟩ := ih h
    refine ⟨opened, .leave (fun hp => ?_) (fun at_ hp => ?_) hv, hn, hf⟩
    · cases hd.symm.trans hp.directory
    · simp [hp.name, hp.kept] at hc
  | case5 visited p pending at_ hd hc hm => cases h
  | case6 visited p pending at_ hd hc hm ih =>
    obtain ⟨opened, hv, hn, hf⟩ := ih h
    refine ⟨at_ :: opened, .enter (.of_not_left_out hd hc) hv,
      List.nodup_cons.2 ⟨fun h => hf at_ h List.mem_cons_self, hn⟩,
      List.forall_mem_cons.2 ⟨hm, fun b hb => fun h => hf b hb (List.mem_cons_of_mem at_ h)⟩⟩

theorem visit_eq_ok_of_visits {opened : List Location} {found : List Path}
    (h : Visits fs filters pending opened found) (hn : opened.Nodup)
    (hf : ∀ at_ ∈ opened, at_ ∉ visited) : visit fs filters visited pending = .ok found := by
  induction h generalizing visited with
  | done => rw [visit]
  | list hp h ih =>
    rw [visit_list hp, ih hn hf]
    rfl
  | leave hp hd h ih => rw [visit_leave hp hd, ih hn hf]
  | @enter p at_ pending opened found hp h ih =>
    obtain ⟨hat, hn⟩ := List.nodup_cons.1 hn
    obtain ⟨hnew, hf⟩ := List.forall_mem_cons.1 hf
    rw [visit_enter hp, if_neg hnew]
    refine ih hn fun b hb hmem => ?_
    rcases List.mem_cons.1 hmem with rfl | hmem
    · exact hat hb
    · exact hf b hb hmem

/-- A walk succeeds exactly when it opens no directory twice. -/
theorem visit_eq_ok_iff {found : List Path} :
    visit fs filters visited pending = .ok found ↔
      ∃ opened, Visits fs filters pending opened found ∧ opened.Nodup ∧
        ∀ at_ ∈ opened, at_ ∉ visited :=
  ⟨exists_visits_of_visit_eq_ok, fun ⟨_, hv, hn, hf⟩ => visit_eq_ok_of_visits hv hn hf⟩

theorem Reached.mono {s t : List Path} (hst : ∀ p ∈ s, Reached fs filters t p)
    (h : Reached fs filters s q) : Reached fs filters t q := by
  induction h with
  | start hp => exact hst _ hp
  | inside h hd hp ih => exact .inside ih hd hp

theorem not_reached_nil : ¬Reached fs filters [] q := by
  intro h
  induction h with
  | start hp => cases hp
  | inside h hd hp ih => exact ih

theorem reached_cons_iff (hp : ∀ at_, ¬Enters fs filters p at_) :
    Reached fs filters (p :: pending) q ↔ q = p ∨ Reached fs filters pending q := by
  constructor
  · intro h
    induction h with
    | start hq => exact (List.mem_cons.1 hq).imp_right .start
    | inside h hd hq ih =>
      rcases ih with rfl | ih
      · exact absurd hd (hp _)
      · exact .inr (.inside ih hd hq)
  · rintro (rfl | h)
    · exact .start List.mem_cons_self
    · exact h.mono fun r hr => .start (List.mem_cons_of_mem p hr)

theorem reached_cons_iff_of_enters (hp : Enters fs filters p at_) :
    Reached fs filters (p :: pending) q ↔
      q = p ∨ Reached fs filters (listing fs p at_ ++ pending) q := by
  constructor
  · intro h
    induction h with
    | start hq =>
      exact (List.mem_cons.1 hq).imp_right fun hq => .start (List.mem_append_right _ hq)
    | inside h hd hq ih =>
      rcases ih with rfl | ih
      · cases hp.directory.symm.trans hd.directory
        exact .inr (.start (List.mem_append_left _ hq))
      · exact .inr (.inside ih hd hq)
  · rintro (rfl | h)
    · exact .start List.mem_cons_self
    · refine h.mono fun r hr => ?_
      rcases List.mem_append.1 hr with hr | hr
      · exact .inside (.start List.mem_cons_self) hp hr
      · exact .start (List.mem_cons_of_mem p hr)

theorem Enters.not_lists (h : Enters fs filters p at_) : ¬Lists fs filters p := by
  intro hl
  cases hl.directory.symm.trans h.directory

theorem Lists.not_enters (h : Lists fs filters p) (at_ : Location) : ¬Enters fs filters p at_ :=
  fun he => he.not_lists h

/-- A walk lists the files it is to list, and no others. -/
theorem Visits.mem_iff {opened : List Location} {found : List Path}
    (h : Visits fs filters pending opened found) :
    q ∈ found ↔ Lists fs filters q ∧ Reached fs filters pending q := by
  induction h with
  | done => simp [not_reached_nil]
  | list hp h ih =>
    rw [List.mem_cons, ih, reached_cons_iff hp.not_enters]
    grind
  | leave hp hd h ih =>
    rw [ih, reached_cons_iff hd]
    grind
  | enter hp h ih =>
    have hl := hp.not_lists
    rw [ih, reached_cons_iff_of_enters hp]
    grind

theorem Visits.append {s t : List Path} {o o' : List Location} {f f' : List Path}
    (hs : Visits fs filters s o f) (ht : Visits fs filters t o' f') :
    Visits fs filters (s ++ t) (o ++ o') (f ++ f') := by
  induction hs with
  | done => exact ht
  | list hp h ih => exact .list hp ih
  | leave hp hd h ih => exact .leave hp hd ih
  | enter hp h ih => exact .enter hp (List.append_assoc _ _ _ ▸ ih)

theorem Visits.exists_of_append {s t : List Path} {o : List Location} {f : List Path}
    (h : Visits fs filters (s ++ t) o f) :
    ∃ o₁ o₂ f₁ f₂, Visits fs filters s o₁ f₁ ∧ Visits fs filters t o₂ f₂ ∧
      o = o₁ ++ o₂ ∧ f = f₁ ++ f₂ := by
  generalize hp : s ++ t = pending at h
  -- on the walk and not on `s`, which grows when a directory is opened
  induction h generalizing s with
  | done =>
    obtain ⟨rfl, rfl⟩ := List.append_eq_nil_iff.1 hp
    exact ⟨[], [], [], [], .done, .done, rfl, rfl⟩
  | @list p pending opened found hp' h ih =>
    rcases List.append_eq_cons_iff.1 hp with ⟨rfl, rfl⟩ | ⟨s, rfl, rfl⟩
    · exact ⟨[], _, [], _, .done, .list hp' h, rfl, rfl⟩
    · obtain ⟨o₁, o₂, f₁, f₂, h₁, h₂, rfl, rfl⟩ := ih rfl
      exact ⟨o₁, o₂, p :: f₁, f₂, .list hp' h₁, h₂, rfl, rfl⟩
  | @leave p pending opened found hp' hd h ih =>
    rcases List.append_eq_cons_iff.1 hp with ⟨rfl, rfl⟩ | ⟨s, rfl, rfl⟩
    · exact ⟨[], _, [], _, .done, .leave hp' hd h, rfl, rfl⟩
    · obtain ⟨o₁, o₂, f₁, f₂, h₁, h₂, rfl, rfl⟩ := ih rfl
      exact ⟨o₁, o₂, f₁, f₂, .leave hp' hd h₁, h₂, rfl, rfl⟩
  | @enter p at_ pending opened found hp' h ih =>
    rcases List.append_eq_cons_iff.1 hp with ⟨rfl, rfl⟩ | ⟨s, rfl, rfl⟩
    · exact ⟨[], _, [], _, .done, .enter hp' h, rfl, rfl⟩
    · obtain ⟨o₁, o₂, f₁, f₂, h₁, h₂, rfl, rfl⟩ := ih (List.append_assoc _ _ _)
      exact ⟨at_ :: o₁, o₂, f₁, f₂, .enter hp' h₁, h₂, rfl, rfl⟩

/-- Pending entries in another order lead to the same directories and files in another order. -/
theorem Visits.perm {s t : List Path} (hst : s.Perm t) {o : List Location} {f : List Path}
    (h : Visits fs filters s o f) :
    ∃ o' f', Visits fs filters t o' f' ∧ o'.Perm o ∧ f'.Perm f := by
  induction hst generalizing o f with
  | nil => exact ⟨o, f, h, .rfl, .rfl⟩
  | @cons p s t hst ih =>
    obtain ⟨o₁, o₂, f₁, f₂, h₁, h₂, rfl, rfl⟩ := Visits.exists_of_append (s := [p]) h
    obtain ⟨o', f', h', ho, hf⟩ := ih h₂
    exact ⟨o₁ ++ o', f₁ ++ f', h₁.append h', ho.append_left o₁, hf.append_left f₁⟩
  | swap p q s =>
    obtain ⟨o₁, _, f₁, _, h₁, h', rfl, rfl⟩ := Visits.exists_of_append (s := [q]) h
    obtain ⟨o₂, o₃, f₂, f₃, h₂, h₃, rfl, rfl⟩ := Visits.exists_of_append (s := [p]) h'
    refine ⟨o₂ ++ (o₁ ++ o₃), f₂ ++ (f₁ ++ f₃), h₂.append (h₁.append h₃), ?_, ?_⟩
    · exact List.perm_append_comm_assoc o₂ o₁ o₃
    · exact List.perm_append_comm_assoc f₂ f₁ f₃
  | trans _ _ ih ih' =>
    obtain ⟨o', f', h', ho, hf⟩ := ih h
    obtain ⟨o'', f'', h'', ho', hf'⟩ := ih' h'
    exact ⟨o'', f'', h'', ho'.trans ho, hf'.trans hf⟩

variable {fs' : FileSystem}

theorem listing_perm (h : fs.Reordered fs') (dir : Path) (at_ : Location) :
    (listing fs' dir at_).Perm (listing fs dir at_) :=
  (h.children at_).map _

theorem lists_iff (h : fs.Reordered fs') : Lists fs' filters p ↔ Lists fs filters p := by
  constructor <;> rintro ⟨hd, hk, hs⟩ <;>
    exact ⟨by simpa only [h.directoryAt?] using hd, hk, hs⟩

theorem enters_iff (h : fs.Reordered fs') : Enters fs' filters p at_ ↔ Enters fs filters p at_ := by
  constructor <;> rintro ⟨hd, hn, hk⟩ <;>
    exact ⟨by simpa only [h.directoryAt?] using hd, hn, hk⟩

theorem Visits.reordered (hr : fs.Reordered fs') {o : List Location} {f : List Path}
    (h : Visits fs filters pending o f) :
    ∃ o' f', Visits fs' filters pending o' f' ∧ o'.Perm o ∧ f'.Perm f := by
  induction h with
  | done => exact ⟨[], [], .done, .rfl, .rfl⟩
  | list hp h ih =>
    obtain ⟨o', f', h', ho, hf⟩ := ih
    exact ⟨o', _, .list ((lists_iff hr).2 hp) h', ho, hf.cons _⟩
  | leave hp hd h ih =>
    obtain ⟨o', f', h', ho, hf⟩ := ih
    exact ⟨o', f', .leave (mt (lists_iff hr).1 hp) (fun at_ => mt (enters_iff hr).1 (hd at_)) h',
      ho, hf⟩
  | @enter p at_ pending opened found hp h ih =>
    obtain ⟨o', f', h', ho, hf⟩ := ih
    obtain ⟨o'', f'', h'', ho', hf'⟩ :=
      h'.perm ((listing_perm hr p at_).symm.append_right pending)
    exact ⟨at_ :: o'', f'', .enter ((enters_iff hr).2 hp) h'', (ho'.trans ho).cons at_,
      hf'.trans hf⟩

theorem mem_files_iff {root : Path} {found : List Path} (h : files fs filters root = .ok found) :
    q ∈ found ↔ Lists fs filters q ∧
      ∃ at_, fs.directoryAt? root = some at_ ∧ Reached fs filters (listing fs root at_) q := by
  rw [files] at h
  split at h
  · next hd =>
    cases h
    simp [hd]
  · next at_ hd =>
    obtain ⟨opened, hv, -, -⟩ := visit_eq_ok_iff.1 h
    simp [hd, hv.mem_iff]

/-- Whether a walk succeeds does not depend on the order of the entries, and neither do the files. -/
theorem exists_files_reordered (hr : fs.Reordered fs') {root : Path} {found : List Path}
    (h : files fs filters root = .ok found) :
    ∃ found', files fs' filters root = .ok found' ∧ found'.Perm found := by
  rw [files] at h ⊢
  rw [hr.directoryAt?]
  split at h
  · cases h
    exact ⟨[], rfl, .rfl⟩
  · next at_ hd =>
    obtain ⟨opened, hv, hn, hf⟩ := visit_eq_ok_iff.1 h
    obtain ⟨o', f', hv', ho, hf'⟩ := hv.reordered hr
    obtain ⟨o'', f'', hv'', ho', hf''⟩ := hv'.perm (listing_perm hr root at_).symm
    have hperm := ho'.trans ho
    refine ⟨f'', visit_eq_ok_iff.2 ⟨o'', hv'', hperm.nodup_iff.2 hn, fun b hb => ?_⟩,
      hf''.trans hf'⟩
    exact hf b (hperm.mem_iff.1 hb)

end Walk
end FenceSync
