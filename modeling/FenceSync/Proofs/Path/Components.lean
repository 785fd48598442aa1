import FenceSync.Path.Basic
/-!
# The components of a path

A path is its steps, which are names and `..`, behind a leading root or `.`. Joining puts steps
behind steps, and a path written from components has these components.
-/
namespace FenceSync.Path

namespace Component

/-- A component that stands for a part of a path: a name or `..`. -/
def Plain (c : Component) : Prop := ofPart? c.bytes = some c ∧ slash ∉ c.bytes

theorem bytes_of_ofPart? {part : Bytes} {c : Component} (h : ofPart? part = some c) :
    c.bytes = part := by
  rw [ofPart?] at h
  split at h
  · cases h
  · split at h
    · next hp =>
      cases h
      exact hp.symm
    · cases h
      rfl

theorem not_plain_root : ¬Plain .root := fun h => (nomatch h.1)

theorem not_plain_here : ¬Plain .here := fun h => (nomatch h.1)

theorem Plain.bytes_ne_nil {c : Component} (h : Plain c) : c.bytes ≠ [] := by
  intro he
  have h := h.1
  rw [he] at h
  cases h

theorem Plain.bytes_ne_dot {c : Component} (h : Plain c) : c.bytes ≠ [dot] := by
  intro he
  have h := h.1
  rw [he] at h
  cases h

theorem filterMap_bytes {cs : List Component} (h : ∀ c ∈ cs, Plain c) :
    (cs.map bytes).filterMap ofPart? = cs := by
  induction cs with
  | nil => rfl
  | cons c cs ih =>
    obtain ⟨hc, hcs⟩ := List.forall_mem_cons.1 h
    rw [List.map_cons, List.filterMap_cons_some hc.1, ih hcs]

end Component

open Component (Plain)

theorem parts_ne_nil (p : Path) : p.parts ≠ [] :=
  List.splitOn_ne_nil slash p.bytes

theorem not_mem_of_mem_parts {p : Path} {part : Bytes} (h : part ∈ p.parts) : slash ∉ part := by
  obtain ⟨t⟩ := p
  rw [parts] at h
  induction t generalizing part with
  | nil =>
    rw [List.splitOn_nil, List.mem_singleton] at h
    rw [h]
    exact List.not_mem_nil
  | cons c t ih =>
    rw [List.splitOn_cons_eq_if_modifyHead] at h
    split at h
    · rcases List.mem_cons.1 h with rfl | h
      · exact List.not_mem_nil
      · exact ih h
    · next hc =>
      cases hs : t.splitOn slash with
      | nil => exact absurd hs (List.splitOn_ne_nil slash t)
      | cons s rest =>
        rw [hs] at h ih
        rcases List.mem_cons.1 h with rfl | h
        · rw [beq_iff_eq] at hc
          exact fun hm => (List.mem_cons.1 hm).elim (fun he => hc he.symm) (ih List.mem_cons_self)
        · exact ih (List.mem_cons_of_mem s h)

theorem head?_parts_eq_nil_iff (p : Path) :
    p.parts.head? = some [] ↔ p.isAbsolute = true ∨ p.bytes = [] := by
  obtain ⟨t⟩ := p
  cases t with
  | nil => simp [parts]
  | cons c t =>
    rw [parts, List.splitOn_cons_eq_if_modifyHead]
    cases hs : t.splitOn slash with
    | nil => exact absurd hs (List.splitOn_ne_nil slash t)
    | cons s rest => by_cases hc : c = slash <;> simp [isAbsolute, hc]

theorem leader_of_parts {p : Path} {part : Bytes} {rest : List Bytes} (hp : p.parts = part :: rest)
    (hne : part ≠ []) : p.leader = if part = [dot] then [.here] else [] := by
  have h := head?_parts_eq_nil_iff p
  simp only [hp, List.head?_cons, Option.some.injEq, hne, false_iff, not_or] at h
  simp [leader, h.1, hp]

/-- Joining puts parts behind parts, after taking off an empty last part. -/
theorem exists_parts_join {q : Path} (hq : q.isAbsolute = false) (p : Path) :
    ∃ init, (p.parts = init ∨ p.parts = init ++ [[]]) ∧ (p.join q).parts = init ++ q.parts ∧
      (p.bytes ≠ [] → init ≠ []) := by
  obtain ⟨t⟩ := p
  rw [join, if_neg (by simp [hq])]
  split
  · next h =>
    rw [Bool.or_eq_true, List.isEmpty_iff, beq_iff_eq] at h
    rcases h with rfl | h
    · exact ⟨[], .inr rfl, rfl, fun h => absurd rfl h⟩
    · obtain ⟨s, rfl⟩ := List.getLast?_eq_some_iff.1 h
      refine ⟨s.splitOn slash, .inr ?_, ?_, fun _ => List.splitOn_ne_nil slash s⟩
      · exact List.splitOn_append_cons_self s []
      · rw [parts, List.append_assoc]
        exact List.splitOn_append_cons_self s q.bytes
  · exact ⟨t.splitOn slash, .inl rfl, List.splitOn_append_cons_self t q.bytes,
      fun _ => List.splitOn_ne_nil slash t⟩

theorem steps_join {q : Path} (hq : q.isAbsolute = false) (p : Path) :
    (p.join q).steps = p.steps ++ q.steps := by
  obtain ⟨init, hp, hj, -⟩ := exists_parts_join hq p
  rw [steps, steps, steps, hj, List.filterMap_append]
  rcases hp with hp | hp
  · rw [hp]
  · simp [hp, Component.ofPart?]

theorem isAbsolute_join {p q : Path} (hq : q.isAbsolute = false) (hp : p.bytes ≠ []) :
    (p.join q).isAbsolute = p.isAbsolute := by
  obtain ⟨t⟩ := p
  rw [join, if_neg (by simp [hq])]
  cases t with
  | nil => exact absurd rfl hp
  | cons c t => split <;> rfl

theorem leader_join {p q : Path} (hq : q.isAbsolute = false) (hp : p.bytes ≠ []) :
    (p.join q).leader = p.leader := by
  obtain ⟨init, hparts, hj, hinit⟩ := exists_parts_join hq p
  obtain ⟨part, rest, rfl⟩ := List.exists_cons_of_ne_nil (hinit hp)
  rw [leader, leader, isAbsolute_join hq hp, hj]
  rcases hparts with h | h <;> rw [h] <;> rfl

theorem join_of_isAbsolute {q : Path} (hq : q.isAbsolute = true) (p : Path) : p.join q = q := by
  rw [join, if_pos hq]

theorem isAbsolute_join_of_isAbsolute {p : Path} (hp : p.isAbsolute = true) (q : Path) :
    (p.join q).isAbsolute = true := by
  cases hq : q.isAbsolute with
  | true => rw [join_of_isAbsolute hq, hq]
  | false =>
    rw [isAbsolute_join hq ?_, hp]
    intro hb
    simp [isAbsolute, hb] at hp

theorem bytes_join_ne_nil {p : Path} (hp : p.bytes ≠ []) (q : Path) : (p.join q).bytes ≠ [] := by
  rw [join]
  split
  · intro hb
    simp_all [isAbsolute]
  · split <;> simp [hp]

theorem join_of_bytes_eq_nil {p q : Path} (hp : p.bytes = []) : p.join q = q := by
  rw [join, hp]
  simp

/-- What joining puts between two texts. -/
def separator (p : Path) : Bytes :=
  if p.bytes.isEmpty || p.bytes.getLast? == some slash then [] else [slash]

theorem join_eq {q : Path} (hq : q.isAbsolute = false) (p : Path) :
    p.join q = ⟨p.bytes ++ p.separator ++ q.bytes⟩ := by
  rw [join, if_neg (by simp [hq]), separator]
  split <;> simp

theorem separator_append (s : Bytes) {t : Bytes} (ht : t ≠ []) :
    separator ⟨s ++ t⟩ = separator ⟨t⟩ := by
  have hlast : t.getLast? = some (t.getLast ht) := List.getLast?_eq_some_getLast ht
  simp [separator, ht, List.getLast?_append, hlast]

theorem separator_append_separator (p : Path) : separator ⟨p.bytes ++ p.separator⟩ = [] := by
  by_cases h : (p.bytes.isEmpty || p.bytes.getLast? == some slash) = true
  · have hp : p.separator = [] := if_pos h
    rw [hp, List.append_nil]
    exact hp
  · have hp : p.separator = [slash] := if_neg h
    rw [hp, separator_append _ (List.cons_ne_nil _ _)]
    rfl

theorem isAbsolute_join_of_relative {q r : Path} (hq : q.isAbsolute = false)
    (hr : r.isAbsolute = false) : (q.join r).isAbsolute = false := by
  by_cases ht : q.bytes = []
  · rw [join_of_bytes_eq_nil ht, hr]
  · rw [isAbsolute_join hr ht, hq]

/-- Joining is associative. -/
theorem join_assoc (p q r : Path) : p.join (q.join r) = (p.join q).join r := by
  cases hr : r.isAbsolute with
  | true => simp only [join_of_isAbsolute hr]
  | false =>
    by_cases ht : q.bytes = []
    · have hq : q.isAbsolute = false := by simp [isAbsolute, ht]
      rw [join_of_bytes_eq_nil ht, join_eq hr, join_eq hr, join_eq hq, ht, List.append_nil,
        separator_append_separator, List.append_nil]
    · cases hq : q.isAbsolute with
      | true => rw [join_of_isAbsolute hq, join_of_isAbsolute (by rw [isAbsolute_join hr ht, hq])]
      | false =>
        rw [join_eq (isAbsolute_join_of_relative hq hr), join_eq hr, join_eq hr, join_eq hq,
          separator_append _ ht]
        simp only [List.append_assoc]

theorem plain_of_mem_steps {p : Path} {c : Component} (h : c ∈ p.steps) : Plain c := by
  obtain ⟨part, hpart, hc⟩ := List.mem_filterMap.1 h
  have ht := Component.bytes_of_ofPart? hc
  exact ⟨ht.symm ▸ hc, ht.symm ▸ not_mem_of_mem_parts hpart⟩

inductive Spelled : List Component → Prop
  | steps {cs} (h : ∀ c ∈ cs, Plain c) : Spelled cs
  | root {cs} (h : ∀ c ∈ cs, Plain c) : Spelled (.root :: cs)
  | here {cs} (h : ∀ c ∈ cs, Plain c) : Spelled (.here :: cs)

theorem spelled_components (p : Path) : Spelled p.components := by
  have h : ∀ c ∈ p.steps, Plain c := fun c hc => plain_of_mem_steps hc
  rw [components, leader]
  split
  · exact .root h
  · split
    · exact .here h
    · exact .steps h

theorem Spelled.dropLast {cs : List Component} (h : Spelled cs) : Spelled cs.dropLast := by
  cases h with
  | steps h => exact .steps fun c hc => h c (List.dropLast_subset _ hc)
  | @root cs h =>
    cases cs with
    | nil => exact .steps h
    | cons c cs => exact .root fun d hd => h d (List.dropLast_subset _ hd)
  | @here cs h =>
    cases cs with
    | nil => exact .steps h
    | cons c cs => exact .here fun d hd => h d (List.dropLast_subset _ hd)

theorem parts_ofNames {ts : List Bytes} (h : ∀ t ∈ ts, slash ∉ t) (hne : ts ≠ []) :
    parts ⟨[slash].intercalate ts⟩ = ts :=
  List.splitOn_intercalate slash h hne

theorem not_mem_of_mem_map_bytes {cs : List Component} (h : ∀ c ∈ cs, Plain c) :
    ∀ t ∈ cs.map Component.bytes, slash ∉ t := by
  intro t ht
  obtain ⟨c, hc, rfl⟩ := List.mem_map.1 ht
  exact (h c hc).2

theorem steps_ofNames {cs : List Component} (h : ∀ c ∈ cs, Plain c) :
    steps ⟨[slash].intercalate (cs.map Component.bytes)⟩ = cs := by
  cases cs with
  | nil => rfl
  | cons c cs =>
    rw [steps, parts_ofNames (not_mem_of_mem_map_bytes h) (by simp), Component.filterMap_bytes h]

theorem ofComponents_of_plain {cs : List Component} (h : ∀ c ∈ cs, Plain c) :
    ofComponents cs = ⟨[slash].intercalate (cs.map Component.bytes)⟩ := by
  rw [ofComponents]
  rintro cs rfl
  exact Component.not_plain_root (h .root List.mem_cons_self)

/-- A path written from components has these components. -/
theorem components_ofComponents {cs : List Component} (h : Spelled cs) :
    (ofComponents cs).components = cs := by
  rw [components]
  cases h with
  | @steps cs h =>
    rw [ofComponents_of_plain h, steps_ofNames h]
    cases cs with
    | nil => rfl
    | cons c cs =>
      have hc := h c List.mem_cons_self
      have hp := parts_ofNames (not_mem_of_mem_map_bytes h) (List.cons_ne_nil _ _)
      rw [leader_of_parts hp hc.bytes_ne_nil, if_neg hc.bytes_ne_dot, List.nil_append]
  | @root cs h =>
    have hsteps := steps_ofNames h
    rw [steps, parts] at hsteps
    simp [ofComponents, leader, isAbsolute, steps, parts, List.splitOn_cons_eq_if_modifyHead,
      Component.ofPart?, hsteps]
  | @here cs h =>
    have hp : (ofComponents (.here :: cs)).parts = [dot] :: cs.map Component.bytes :=
      parts_ofNames (List.forall_mem_cons.2 ⟨by decide, not_mem_of_mem_map_bytes h⟩) (by simp)
    rw [leader_of_parts hp (List.cons_ne_nil _ _), if_pos rfl, steps, hp,
      List.filterMap_cons_none rfl, Component.filterMap_bytes h, List.singleton_append]

def Component.isStep (c : Component) : Bool := c ≠ .root && c ≠ .here

theorem Component.Plain.isStep {c : Component} (h : Plain c) : c.isStep = true := by
  cases c with
  | root => exact absurd h not_plain_root
  | here => exact absurd h not_plain_here
  | up => rfl
  | name n => rfl

theorem filter_isStep_of_plain {cs : List Component} (h : ∀ c ∈ cs, Plain c) :
    cs.filter Component.isStep = cs :=
  List.filter_eq_self.2 fun c hc => (h c hc).isStep

theorem filter_isStep_leader (p : Path) : p.leader.filter Component.isStep = [] := by
  rw [leader]
  split
  · rfl
  · split <;> rfl

theorem steps_eq (p : Path) : p.steps = p.components.filter Component.isStep := by
  rw [components, List.filter_append, filter_isStep_leader, List.nil_append,
    filter_isStep_of_plain fun c hc => plain_of_mem_steps hc]

theorem root_not_mem_steps (p : Path) : .root ∉ p.steps :=
  fun h => Component.not_plain_root (plain_of_mem_steps h)

theorem isAbsolute_iff {p : Path} : p.isAbsolute = true ↔ .root ∈ p.components := by
  rw [components, List.mem_append, or_iff_left p.root_not_mem_steps, leader]
  split
  · next h => simp [h]
  · next h => split <;> simp [h]

theorem components_parent (p : Path) : p.parent.components = p.components.dropLast :=
  components_ofComponents (spelled_components p).dropLast

theorem components_parent_of_steps {p : Path} (h : p.steps ≠ []) :
    p.parent.components = p.leader ++ p.steps.dropLast := by
  rw [components_parent, components, List.dropLast_append_of_ne_nil h]

theorem steps_parent {p : Path} (h : p.steps ≠ []) : p.parent.steps = p.steps.dropLast := by
  rw [steps_eq, components_parent_of_steps h, List.filter_append, filter_isStep_leader,
    List.nil_append, filter_isStep_of_plain fun c hc =>
      plain_of_mem_steps (List.dropLast_subset _ hc)]

theorem isAbsolute_parent {p : Path} (h : p.steps ≠ []) :
    p.parent.isAbsolute = p.isAbsolute := by
  have hdrop : .root ∉ p.steps.dropLast :=
    fun hr => p.root_not_mem_steps (List.dropLast_subset _ hr)
  rw [Bool.eq_iff_iff, isAbsolute_iff, isAbsolute_iff, components_parent_of_steps h,
    components.eq_def p, List.mem_append, List.mem_append, or_iff_left hdrop,
    or_iff_left p.root_not_mem_steps]

end FenceSync.Path
