import FenceSync.Path.Normal
import FenceSync.Proofs.Path.Components
/-!
# Normal forms and joining

The normal form of a path is the stack that its components leave when each is pushed. Pushing the
components of a normal form does what pushing the components of the path does, so that a path may be
normalized before or after it is joined to another.
-/
namespace FenceSync.Path

open Component (Plain)

/-- What the components of the path leave, the innermost first. -/
def stack (p : Path) : List Component := p.components.foldl push []

theorem normalize_eq (p : Path) : p.normalize = ofComponents p.stack.reverse := rfl

/-- Pushing what components have left is pushing these components. -/
theorem foldl_push_reverse (s t cs : List Component) :
    (cs.foldl push t).reverse.foldl push s = cs.foldl push (t.reverse.foldl push s) := by
  induction cs generalizing t with
  | nil => rfl
  | cons c cs ih =>
    rw [List.foldl_cons, List.foldl_cons, ih]
    congr 1
    cases c with
    | root => simp [push]
    | here => rfl
    | name n => simp [push]
    | up =>
      -- the only step that takes something off: a name pushed before, here and there alike
      match t with
      | [] => rfl
      | .name n :: t => simp [push]
      | .root :: t => simp [push]
      | .up :: t => simp [push]
      | .here :: t => simp [push]

theorem foldl_push_leader {p : Path} (hp : p.isAbsolute = false) (s : List Component) :
    p.leader.foldl push s = s := by
  rw [leader, hp]
  simp only [Bool.false_eq_true, if_false]
  split <;> rfl

theorem foldl_push_components {p : Path} (hp : p.isAbsolute = false) (s : List Component) :
    p.components.foldl push s = p.steps.foldl push s := by
  rw [components, List.foldl_append, foldl_push_leader hp]

theorem stack_eq (p : Path) : p.stack = p.steps.foldl push (p.leader.foldl push []) := by
  rw [stack, components, List.foldl_append]

theorem foldl_push_leader_join {q : Path} (hq : q.isAbsolute = false) (p : Path) :
    (p.join q).leader.foldl push [] = p.leader.foldl push [] := by
  by_cases hp : p.bytes = []
  · obtain ⟨t⟩ := p
    subst hp
    rw [join_of_bytes_eq_nil rfl, foldl_push_leader hq]
    rfl
  · rw [leader_join hq hp]

theorem stack_join {q : Path} (hq : q.isAbsolute = false) (p : Path) :
    (p.join q).stack = q.steps.foldl push p.stack := by
  rw [stack_eq, stack_eq, foldl_push_leader_join hq, steps_join hq, List.foldl_append]

/-- The stack of a path is a root, if the path has one, with names and `..` on it. -/
theorem exists_foldl_push {base cs : List Component} (hbase : base = [] ∨ base = [.root])
    (body : List Component) (hbody : ∀ c ∈ body, Plain c) (hcs : ∀ c ∈ cs, Plain c) :
    ∃ body', (∀ c ∈ body', Plain c) ∧ cs.foldl push (body ++ base) = body' ++ base := by
  induction cs generalizing body with
  | nil => exact ⟨body, hbody, rfl⟩
  | cons c cs ih =>
    obtain ⟨hc, hcs⟩ := List.forall_mem_cons.1 hcs
    suffices h : ∃ body', (∀ c ∈ body', Plain c) ∧ push (body ++ base) c = body' ++ base by
      obtain ⟨body', hbody', h⟩ := h
      rw [List.foldl_cons, h]
      exact ih body' hbody' hcs
    cases c with
    | root => exact absurd hc Component.not_plain_root
    | here => exact absurd hc Component.not_plain_here
    | name n => exact ⟨.name n :: body, List.forall_mem_cons.2 ⟨hc, hbody⟩, rfl⟩
    | up =>
      cases body with
      | nil =>
        rcases hbase with rfl | rfl
        · exact ⟨[.up], by simpa using hc, rfl⟩
        · exact ⟨[], by simp, rfl⟩
      | cons d body =>
        obtain ⟨hd, hbody'⟩ := List.forall_mem_cons.1 hbody
        cases d with
        | root => exact absurd hd Component.not_plain_root
        | here => exact absurd hd Component.not_plain_here
        | name n => exact ⟨body, hbody', rfl⟩
        | up => exact ⟨.up :: .up :: body, List.forall_mem_cons.2 ⟨hc, hbody⟩, rfl⟩

theorem exists_stack_of_relative {p : Path} (hp : p.isAbsolute = false) :
    ∃ body, (∀ c ∈ body, Plain c) ∧ p.stack = body := by
  obtain ⟨body, hbody, h⟩ := exists_foldl_push (.inl rfl) [] (by simp)
    fun c (hc : c ∈ p.steps) => plain_of_mem_steps hc
  exact ⟨body, hbody, by simpa [stack, foldl_push_components hp] using h⟩

theorem exists_stack_of_absolute {p : Path} (hp : p.isAbsolute = true) :
    ∃ body, (∀ c ∈ body, Plain c) ∧ p.stack = body ++ [.root] := by
  obtain ⟨body, hbody, h⟩ := exists_foldl_push (.inr rfl) [] (by simp)
    fun c (hc : c ∈ p.steps) => plain_of_mem_steps hc
  exact ⟨body, hbody, by simpa [stack, components, leader, hp, push] using h⟩

theorem components_normalize (p : Path) : p.normalize.components = p.stack.reverse := by
  rw [normalize_eq]
  refine components_ofComponents ?_
  cases hp : p.isAbsolute with
  | true =>
    obtain ⟨body, hbody, h⟩ := exists_stack_of_absolute hp
    rw [h, List.reverse_append]
    exact .root fun c hc => hbody c (List.mem_reverse.1 hc)
  | false =>
    obtain ⟨body, hbody, h⟩ := exists_stack_of_relative hp
    rw [h]
    exact .steps fun c hc => hbody c (List.mem_reverse.1 hc)

theorem normalize_eq_iff {p q : Path} : p.normalize = q.normalize ↔ p.stack = q.stack := by
  constructor
  · intro h
    have h := congrArg components h
    rwa [components_normalize, components_normalize, List.reverse_inj] at h
  · intro h
    rw [normalize_eq, normalize_eq, h]

theorem isAbsolute_normalize (p : Path) : p.normalize.isAbsolute = p.isAbsolute := by
  rw [Bool.eq_iff_iff, isAbsolute_iff, components_normalize, List.mem_reverse]
  cases hp : p.isAbsolute with
  | true =>
    obtain ⟨body, -, h⟩ := exists_stack_of_absolute hp
    simp [h]
  | false =>
    obtain ⟨body, hbody, h⟩ := exists_stack_of_relative hp
    simpa [h] using fun hr => Component.not_plain_root (hbody _ hr)

theorem stack_normalize (p : Path) : p.normalize.stack = p.stack := by
  rw [stack, components_normalize, stack, foldl_push_reverse]
  rfl

theorem stack_join_congr {p q : Path} (h : p.stack = q.stack) (r : Path) :
    (p.join r).stack = (q.join r).stack := by
  cases hr : r.isAbsolute with
  | true => rw [join_of_isAbsolute hr, join_of_isAbsolute hr]
  | false => rw [stack_join hr, stack_join hr, h]

/-- The path that is joined may be normalized first. -/
theorem stack_join_normalize (p q : Path) : (p.join q.normalize).stack = (p.join q).stack := by
  have hn := isAbsolute_normalize q
  cases hq : q.isAbsolute with
  | true =>
    rw [hq] at hn
    rw [join_of_isAbsolute hn, join_of_isAbsolute hq, stack_normalize]
  | false =>
    rw [hq] at hn
    rw [stack_join hn, stack_join hq, ← foldl_push_components hn, components_normalize,
      ← foldl_push_components hq]
    exact foldl_push_reverse p.stack [] q.components

/-- The directory of a path that is joined. -/
theorem stack_parent_join {q : Path} (hq : q.isAbsolute = false) (hs : q.steps ≠ []) (p : Path) :
    (p.join q).parent.stack = q.steps.dropLast.foldl push p.stack := by
  have hsteps := steps_join hq p
  have hne : (p.join q).steps ≠ [] := by simp [hsteps, hs]
  rw [stack, components_parent_of_steps hne, List.foldl_append, foldl_push_leader_join hq, hsteps,
    List.dropLast_append_of_ne_nil hs, List.foldl_append, ← stack_eq]

end FenceSync.Path
