import FenceSync.Files.Lookup
/-!
# Alike file systems

File systems that differ only in what their files say. A path leads to the same place in both, and a
file is a text in both or in none, so writing a text over a text leaves every file as readable as it
was.
-/
namespace FenceSync.FileSystem

/-- The same directories and links, and the same files, of which the same ones are texts. -/
structure Alike (fs fs' : FileSystem) : Prop where
  workingDirectory : fs'.workingDirectory = fs.workingDirectory
  entry : ∀ at_, fs'.get? at_ = fs.get? at_ ∨ ∃ content content',
    fs.get? at_ = some (.file content) ∧ fs'.get? at_ = some (.file content') ∧
      (decode content').isOk = (decode content).isOk

namespace Alike

variable {fs fs' fs'' : FileSystem}

theorem refl (fs : FileSystem) : Alike fs fs := ⟨rfl, fun _ => .inl rfl⟩

theorem trans (h : Alike fs fs') (h' : Alike fs' fs'') : Alike fs fs'' := by
  refine ⟨h'.workingDirectory.trans h.workingDirectory, fun at_ => ?_⟩
  rcases h'.entry at_ with he' | ⟨content, content', hg, hg', hd⟩
  · rw [he']
    exact h.entry at_
  · rcases h.entry at_ with he | ⟨content₁, content₂, hg₁, hg₂, hd₁⟩
    · rw [he] at hg
      exact .inr ⟨content, content', hg, hg', hd⟩
    · rw [hg] at hg₂
      cases hg₂
      exact .inr ⟨content₁, content', hg₁, hg', hd.trans hd₁⟩

section

variable (h : Alike fs fs')

include h

theorem get?_eq_directory_iff (at_ : Location) :
    fs'.get? at_ = some .directory ↔ fs.get? at_ = some .directory := by
  rcases h.entry at_ with he | ⟨_, _, hg, hg', -⟩
  · rw [he]
  · simp [hg, hg']

theorem isSome_get? (at_ : Location) : (fs'.get? at_).isSome = (fs.get? at_).isSome := by
  rcases h.entry at_ with he | ⟨_, _, hg, hg', -⟩
  · rw [he]
  · simp [hg, hg']

theorem followUntilLink (jump : Location → Path → List Bytes → Except FileError Location)
    (here : Location) (parts : List Bytes) :
    fs'.followUntilLink jump here parts = fs.followUntilLink jump here parts := by
  induction parts generalizing here with
  | nil => rfl
  | cons part rest ih =>
    simp only [FileSystem.followUntilLink, ne_eq, h.get?_eq_directory_iff, ih]
    rcases h.entry (part :: here) with he | ⟨_, _, hg, hg', -⟩
    · rw [he]
    · rw [hg, hg']

theorem follow (links : Nat) (here : Location) (parts : List Bytes) :
    fs'.follow links here parts = fs.follow links here parts := by
  induction links generalizing here parts with
  | zero => exact h.followUntilLink _ here parts
  | succ links ih =>
    rw [FileSystem.follow, FileSystem.follow, h.followUntilLink]
    simp only [ih]

theorem reach (p : Path) : fs'.reach p = fs.reach p := by
  rw [FileSystem.reach, FileSystem.reach, h.follow, h.workingDirectory]

theorem locate (p : Path) : fs'.locate p = fs.locate p := by
  simp only [FileSystem.locate, h.reach, h.isSome_get?]

/-- A path names a text in both or in none. -/
theorem isOk_read (p : Path) : (fs'.read p).isOk = (fs.read p).isOk := by
  simp only [FileSystem.read, FileSystem.readBytes, h.locate]
  cases fs.locate p with
  | error cause => rfl
  | ok at_ =>
    rcases h.entry at_ with he | ⟨_, _, hg, hg', hd⟩
    · simp only [he]
    · simp only [hg, hg']
      exact hd

end

end Alike

theorem lookup_cons_eq_ite (b : Location) (x : Location × Entry) (es : List (Location × Entry)) :
    (x :: es).lookup b = if b = x.1 then some x.2 else es.lookup b := by
  obtain ⟨c, e⟩ := x
  by_cases h : b = c
  · simp [h]
  · simp [List.lookup_cons, h, beq_eq_false_iff_ne.2 h]

theorem any_eq_isSome_lookup (at_ : Location) (es : List (Location × Entry)) :
    (es.any fun x => x.1 = at_) = (es.lookup at_).isSome := by
  induction es with
  | nil => rfl
  | cons x es ih =>
    rw [List.any_cons, lookup_cons_eq_ite, ih]
    by_cases h : x.1 = at_
    · simp [h]
    · simp [h, Ne.symm h]

theorem lookup_map_set (at_ : Location) (e : Entry) (es : List (Location × Entry)) (b : Location) :
    (es.map fun x => if x.1 = at_ then (at_, e) else x).lookup b =
      if b = at_ then (es.lookup at_).map fun _ => e else es.lookup b := by
  induction es with
  | nil => simp
  | cons x es ih =>
    rw [List.map_cons, lookup_cons_eq_ite, lookup_cons_eq_ite, lookup_cons_eq_ite, ih]
    by_cases hx : x.1 = at_
    · by_cases hb : b = at_ <;> simp [hx, hb]
    · by_cases hb : b = at_
      · simp [hx, hb, Ne.symm hx]
      · simp [hx, hb]

section

variable {fs fs' : FileSystem} {p : Path} {at_ : Location}

theorem get?_set (hat : at_ ≠ []) (e : Entry) (b : Location) :
    (fs.set at_ e).get? b = if b = at_ then some e else fs.get? b := by
  by_cases hb : b = at_
  · subst hb
    simp only [get?, set, any_eq_isSome_lookup, hat, if_false, if_true]
    cases hl : fs.entries.lookup b with
    | some e' => simp [lookup_map_set, hl]
    | none => simp [List.lookup_append, hl]
  · simp only [get?, set, any_eq_isSome_lookup, hb, if_false]
    split
    · rfl
    · split
      · rw [lookup_map_set, if_neg hb]
      · simp [List.lookup_append, lookup_cons_eq_ite, hb]

/-- Writing leaves alone what stands elsewhere. -/
theorem get?_of_write_eq_ok {content : Bytes} (h : fs.write p content = .ok fs')
    (hat : fs.reach p ≠ .ok at_) : fs'.get? at_ = fs.get? at_ := by
  rw [write] at h
  split at h
  · cases h
  · next place hreach =>
    split at h
    · cases h
    · next hdir =>
      cases h
      have hplace : place ≠ [] := by
        rintro rfl
        exact hdir (if_pos rfl)
      have hne : at_ ≠ place := by
        rintro rfl
        exact hat hreach
      rw [get?_set hplace, if_neg hne]

/-- A path that can be read leads to a file. -/
theorem exists_of_read_eq_ok {t : Text} (h : fs.read p = .ok t) : ∃ at_ content,
    fs.reach p = .ok at_ ∧ fs.get? at_ = some (.file content) ∧ decode content = .ok t := by
  rw [read, readBytes, locate] at h
  cases hr : fs.reach p with
  | error cause => simp [hr, bind, Except.bind] at h
  | ok at_ =>
    cases hg : fs.get? at_ with
    | none => simp [hr, hg, bind, Except.bind] at h
    | some e =>
      cases e with
      | directory => simp [hr, hg, bind, Except.bind] at h
      | link target => simp [hr, hg, bind, Except.bind] at h
      | file content =>
        refine ⟨at_, content, rfl, hg, ?_⟩
        simpa [hr, hg, bind, Except.bind] using h

theorem read_eq_ok_iff {t : Text} : fs.read p = .ok t ↔ ∃ at_ content,
    fs.reach p = .ok at_ ∧ fs.get? at_ = some (.file content) ∧ decode content = .ok t := by
  refine ⟨exists_of_read_eq_ok, ?_⟩
  rintro ⟨at_, content, hreach, hget, hdecode⟩
  simp [read, readBytes, locate, hreach, hget, bind, Except.bind, hdecode]

theorem isFile_of_read_eq_ok {t : Text} (h : fs.read p = .ok t) : fs.isFile p = true := by
  obtain ⟨at_, content, hreach, hget, -⟩ := exists_of_read_eq_ok h
  simp [isFile, entryAt?, locate, hreach, hget]

theorem exists?_of_read_eq_ok {t : Text} (h : fs.read p = .ok t) : fs.exists? p = true := by
  obtain ⟨at_, content, hreach, hget, -⟩ := exists_of_read_eq_ok h
  simp [exists?, entryAt?, locate, hreach, hget]

/-- A text can be written over a text, and every file can be read as before. -/
theorem exists_write_eq_ok {t : Text} (h : fs.read p = .ok t) (t' : Text) :
    ∃ fs', fs.write p t'.bytes = .ok fs' ∧ Alike fs fs' := by
  obtain ⟨at_, content, hreach, hget, hdecode⟩ := exists_of_read_eq_ok h
  have hat : at_ ≠ [] := by
    rintro rfl
    simp [get?] at hget
  refine ⟨fs.set at_ (.file t'.bytes), by simp [write, hreach, hget], rfl, fun b => ?_⟩
  rw [get?_set hat]
  by_cases hb : b = at_
  · subst hb
    exact .inr ⟨content, t'.bytes, hget, if_pos rfl, by rw [hdecode, decode_bytes]; rfl⟩
  · exact .inl (if_neg hb)

end

end FenceSync.FileSystem
