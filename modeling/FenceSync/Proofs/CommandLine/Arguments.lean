import FenceSync.CommandLine.Arguments
/-!
# Arguments with a mode in front

Arguments that choose no mode are read in the same way behind `--verify`: the same ones are refused,
for the same reason, and those that are accepted differ in the mode only.
-/
namespace FenceSync.Arguments

def Switch.isMode : Switch → Bool
  | .verify | .dryRun | .stdout => true
  | _ => false

def Name.isMode : Name → Bool
  | .switch s => s.isMode
  | _ => false

def modeFlags : List Text := ["--verify", "--dry-run", "--stdout"].map String.toList

/-- No argument chooses a mode; what stands behind `--` names files. -/
def ChooseNoMode (args : List Text) : Prop :=
  ∀ t ∈ args.takeWhile (· ≠ ['-', '-']), t ∉ modeFlags

instance (args : List Text) : Decidable (ChooseNoMode args) :=
  inferInstanceAs (Decidable (∀ t ∈ args.takeWhile (· ≠ ['-', '-']), t ∉ modeFlags))

theorem ChooseNoMode.of_cons {t : Text} {rest : List Text} (h : ChooseNoMode (t :: rest))
    (ht : t ≠ ['-', '-']) : t ∉ modeFlags ∧ ChooseNoMode rest := by
  rw [ChooseNoMode, List.takeWhile_cons_of_pos (by simpa using ht), List.forall_mem_cons] at h
  exact h

theorem isMode_of_longName? {t : Text} (ht : '-' :: '-' :: t ∉ modeFlags) {name : Name}
    (h : longName? t = some name) : name.isMode = false := by
  have hnames : ∀ x ∈ longNames, x.2.isMode = true → '-' :: '-' :: x.1.toList ∈ modeFlags := by
    decide
  obtain ⟨x, hx, rfl⟩ := Option.map_eq_some_iff.1 h
  rw [Bool.eq_false_iff]
  intro hm
  have hspelled : x.1.toList = t := by simpa using List.find?_some hx
  exact ht (hspelled ▸ hnames x (List.mem_of_find?_eq_some hx) hm)

theorem isMode_of_shortName? {c : Char} {name : Name} (h : shortName? c = some name) :
    name.isMode = false := by
  unfold shortName? at h
  split at h <;> cases h <;> rfl

namespace Reading

/-- The same reading behind `--verify`. -/
def verifying (r : Reading) : Reading := { r with switches := r.switches ++ [.verify] }

def Modeless (r : Reading) : Prop := ∀ s ∈ r.switches, s.isMode = false

/-- The second reading is the first one behind `--verify`. -/
def Agree (x y : Except ArgumentError Reading) : Prop :=
  y = x.map verifying ∧ ∀ r, x = .ok r → r.Modeless

theorem agree_error (cause : ArgumentError) : Agree (.error cause) (.error cause) :=
  ⟨rfl, fun _ h => nomatch h⟩

theorem agree_ok {r : Reading} (h : r.Modeless) : Agree (.ok r) (.ok r.verifying) :=
  ⟨rfl, fun _ hr => by cases hr; exact h⟩

theorem Agree.bind {x y : Except ArgumentError Reading} {f : Reading → Except ArgumentError Reading}
    (h : Agree x y) (hf : ∀ r : Reading, r.Modeless → Agree (f r) (f r.verifying)) :
    Agree (x >>= f) (y >>= f) := by
  obtain ⟨rfl, hm⟩ := h
  cases x with
  | error cause => exact agree_error cause
  | ok r => exact hf r (hm r rfl)

section

variable {r : Reading} (h : r.Modeless)

include h

theorem agree_setValue (s : Setting) (value : Text) :
    Agree (r.setValue s value) (r.verifying.setValue s value) := by
  rw [setValue, setValue, verifying]
  split
  · exact agree_error _
  · split
    · exact agree_ok h
    · exact agree_error _

theorem agree_settle : Agree r.settle r.verifying.settle := by
  obtain ⟨switches, settings, files, pending⟩ := r
  rcases pending with _ | ⟨s, _ | value⟩
  · exact agree_ok h
  · exact agree_error _
  · exact agree_setValue (r := ⟨switches, settings, files, none⟩) h s value

theorem agree_give {name : Name} (hn : name.isMode = false) :
    Agree (r.give name) (r.verifying.give name) := by
  cases name with
  | help => exact agree_error _
  | version => exact agree_error _
  | setting s => exact agree_ok h
  | switch s =>
    have hs : s ≠ .verify := by
      rintro rfl
      cases hn
    have hc : r.verifying.switches.contains s = r.switches.contains s := by
      simp [verifying, hs]
    rw [give, give, hc]
    split
    · exact agree_error _
    · apply agree_ok (r := { r with switches := s :: r.switches })
      intro s' hs'
      rcases List.mem_cons.1 hs' with rfl | hs'
      · exact hn
      · exact h s' hs'

theorem agree_addFile (t : Text) : Agree (r.addFile t) (r.verifying.addFile t) := by
  have hs := agree_settle h
  rw [addFile, addFile, hs.1]
  cases hr : r.settle with
  | error cause => exact agree_error cause
  | ok r' => exact agree_ok (r := { r' with files := r'.files ++ [t] }) (hs.2 r' hr)

theorem agree_long {t : Text} (ht : '-' :: '-' :: t ∉ modeFlags) :
    Agree (r.long t) (r.verifying.long t) := by
  rw [long, long]
  cases Text.cut? ['='] t with
  | none =>
    cases hl : longName? t with
    | none => simpa only [hl] using agree_error _
    | some name =>
      simpa only [hl] using
        (agree_settle h).bind fun r hr => agree_give hr (isMode_of_longName? ht hl)
  | some x =>
    obtain ⟨name, value⟩ := x
    cases hl : longName? name with
    | none => simpa only [hl] using agree_error _
    | some n =>
      cases n with
      | setting s =>
        simpa only [hl] using (agree_settle h).bind fun r hr => agree_setValue hr s value
      | switch s => simpa only [hl] using agree_error _
      | help => simpa only [hl] using agree_error _
      | version => simpa only [hl] using agree_error _

theorem agree_shorts (t : Text) : Agree (r.shorts t) (r.verifying.shorts t) := by
  induction t generalizing r with
  | nil => exact agree_ok h
  | cons c rest ih =>
    rw [shorts, shorts]
    cases hc : shortName? c with
    | none => exact agree_error _
    | some name =>
      have hn := isMode_of_shortName? hc
      have hgive : ∀ r : Reading, r.Modeless → Agree (r.give name >>= fun r => r.shorts rest)
          (r.verifying.give name >>= fun r => r.shorts rest) :=
        fun r hr => (agree_give hr hn).bind fun r hr => ih hr
      cases name with
      | switch s => exact (agree_settle h).bind hgive
      | help => exact (agree_settle h).bind hgive
      | version => exact (agree_settle h).bind hgive
      | setting s =>
        apply (agree_settle h).bind
        intro r hr
        split
        · exact agree_give hr hn
        · exact agree_setValue hr s _
        · exact agree_setValue hr s _

theorem agree_all (onlyFiles : Bool) (args : List Text)
    (hargs : onlyFiles = false → ChooseNoMode args) :
    Agree (all onlyFiles r args) (all onlyFiles r.verifying args) := by
  induction args generalizing onlyFiles r with
  | nil => exact agree_settle h
  | cons t rest ih =>
    have hpending : r.verifying.pending = r.pending := rfl
    unfold all
    rw [hpending]
    cases onlyFiles with
    | true => exact (agree_addFile h t).bind fun r hr => ih hr true nofun
    | false =>
      replace hargs := hargs rfl
      simp only [Bool.false_eq_true, if_false]
      split
      · exact ih h true nofun
      · next t ht =>
        obtain ⟨hflag, hrest⟩ := hargs.of_cons (by simpa using ht)
        exact (agree_long h hflag).bind fun r hr => ih hr false fun _ => hrest
      · next hyphen =>
        obtain ⟨-, hrest⟩ := hargs.of_cons (by rintro ⟨⟩; simp at hyphen)
        exact (agree_shorts h _).bind fun r hr => ih hr false fun _ => hrest
      · next s hsep _ _ _ =>
        obtain ⟨-, hrest⟩ := hargs.of_cons hsep
        exact ih (r := { r with pending := some (s, some _) }) h false fun _ => hrest
      · next hsep _ _ _ =>
        obtain ⟨-, hrest⟩ := hargs.of_cons hsep
        exact (agree_addFile h _).bind fun r hr => ih hr false fun _ => hrest

end

theorem Modeless.has_eq_false {r : Reading} (h : r.Modeless) {s : Switch} (hs : s.isMode = true) :
    r.has s = false := by
  rw [has, Bool.eq_false_iff]
  intro hc
  rw [h s (List.contains_iff_mem.1 hc)] at hs
  cases hs

theorem has_verifying (r : Reading) (s : Switch) :
    r.verifying.has s = (r.has s || s = .verify) := by
  simp [has, verifying]

section

variable {r : Reading} (h : r.Modeless)

include h

/-- The mode is all that tells the finished readings apart. -/
theorem finish_verifying :
    r.verifying.finish = r.finish.map fun a => { a with verify := true } := by
  have hdryRun : r.has .dryRun = false := h.has_eq_false rfl
  have hstdout : r.has .stdout = false := h.has_eq_false rfl
  have hconflict : r.hasConflict = false := by simp [hasConflict, hdryRun, hstdout]
  have hconflict' : r.verifying.hasConflict = false := by
    simp [hasConflict, has_verifying, hdryRun, hstdout]
  have hfiles : r.verifying.files = r.files := rfl
  have hvalue : ∀ s, r.verifying.value? s = r.value? s := fun _ => rfl
  simp only [finish, hconflict, hconflict', hfiles, hvalue, has_verifying]
  cases r.files.isEmpty <;> simp [Except.map]

theorem mode_of_finish {a : Arguments} (ha : r.finish = .ok a) : a.mode = .write := by
  have hverify : r.has .verify = false := h.has_eq_false rfl
  have hdryRun : r.has .dryRun = false := h.has_eq_false rfl
  have hstdout : r.has .stdout = false := h.has_eq_false rfl
  rw [finish] at ha
  split at ha
  · cases ha
  · split at ha
    · cases ha
    · cases ha
      simp [mode, hverify, hdryRun, hstdout]

end

theorem modeless_start : start.Modeless := nofun

/-- A first `--verify` is read before all else. -/
theorem all_verify (args : List Text) :
    all false start ("--verify".toList :: args) = all false start.verifying args :=
  rfl

end Reading

section

variable {args : List Text} (h : ChooseNoMode args)

include h

/-- Behind `--verify` the same arguments are accepted, and they differ in the mode only. -/
theorem parse_verify :
    parse ("--verify".toList :: args) = (parse args).map fun a => { a with verify := true } := by
  obtain ⟨hall, hmodeless⟩ := Reading.agree_all Reading.modeless_start false args fun _ => h
  rw [parse, parse, Reading.all_verify, hall]
  cases hr : Reading.all false .start args with
  | error cause => rfl
  | ok r => exact Reading.finish_verifying (hmodeless r hr)

theorem mode_of_parse {a : Arguments} (ha : parse args = .ok a) : a.mode = .write := by
  obtain ⟨-, hmodeless⟩ := Reading.agree_all Reading.modeless_start false args fun _ => h
  rw [parse] at ha
  cases hr : Reading.all false .start args with
  | error cause =>
    rw [hr] at ha
    cases ha
  | ok r =>
    rw [hr] at ha
    exact Reading.mode_of_finish (hmodeless r hr) ha

end

/-- No other mode is accepted with stdout mode. -/
theorem Reading.mode_eq_stdout_iff_of_finish {r : Reading} {a : Arguments}
    (ha : r.finish = .ok a) : a.mode = .stdout ↔ a.stdout = true := by
  rw [finish] at ha
  split at ha
  · cases ha
  · next hc =>
    split at ha
    · cases ha
    · cases ha
      simp only [hasConflict, Bool.or_eq_true, Bool.and_eq_true, not_or, not_and] at hc
      simp only [mode]
      by_cases hv : r.has .verify = true
      · simp [hv, hc.1 hv]
      · by_cases hd : r.has .dryRun = true
        · simp [hv, hd, hc.2 hd]
        · simp [hv, hd]

theorem mode_eq_stdout_iff {args : List Text} {a : Arguments} (ha : parse args = .ok a) :
    a.mode = .stdout ↔ a.stdout = true := by
  rw [parse] at ha
  cases hr : Reading.all false .start args with
  | error cause =>
    rw [hr] at ha
    cases ha
  | ok r =>
    rw [hr] at ha
    exact Reading.mode_eq_stdout_iff_of_finish ha

end FenceSync.Arguments
