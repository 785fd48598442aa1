import FenceSync.Proofs.Path.Components
/-!
# The order of paths

Paths are compared by their components, so that the order is total up to spelling. A sorted list of
paths is strictly increasing, it holds one spelling of each path of the original list and nothing
else, and the paths in it do not depend on the order of that list.
-/
namespace FenceSync

open Std (LawfulEqCmp OrientedCmp ReflCmp TransCmp)

namespace Path

namespace Component

theorem compare_name (m n : Bytes) : Component.compare (.name m) (.name n) = Ord.compare m n := rfl

instance : TransCmp Component.compare where
  eq_swap {a b} := by
    cases a <;> cases b <;>
      first | rfl | simpa only [compare_name] using OrientedCmp.eq_swap
  isLE_trans {a b c} hab hbc := by
    cases a <;> cases b <;> cases c <;>
      first | rfl | contradiction |
        (simp only [compare_name] at hab hbc ⊢; exact TransCmp.isLE_trans hab hbc)

instance : LawfulEqCmp Component.compare where
  eq_of_compare {a b} h := by
    cases a <;> cases b <;>
      first | rfl | contradiction | exact congrArg name (LawfulEqCmp.eq_of_compare h)

end Component

theorem compareComponents_eq : compareComponents = List.compareLex Component.compare := by
  funext s t
  induction s generalizing t with
  | nil => cases t <;> rfl
  | cons a s ih =>
    cases t with
    | nil => rfl
    | cons b t => rw [compareComponents, ih, List.compareLex_cons_cons]

instance : TransCmp compareComponents := by
  rw [compareComponents_eq]
  infer_instance

instance : LawfulEqCmp compareComponents := by
  rw [compareComponents_eq]
  infer_instance

instance : TransCmp Path.compare where
  eq_swap {p q} := @OrientedCmp.eq_swap _ compareComponents _ p.components q.components
  isLE_trans {p q r} :=
    @TransCmp.isLE_trans _ compareComponents _ p.components q.components r.components

theorem compare_eq_eq_iff {p q : Path} : compare p q = .eq ↔ p.components = q.components :=
  @LawfulEqCmp.compare_eq_iff_eq _ compareComponents _ p.components q.components

theorem compareComponents_append_left (cs s t : List Component) :
    compareComponents (cs ++ s) (cs ++ t) = compareComponents s t := by
  induction cs with
  | nil => rfl
  | cons c cs ih =>
    have hc : c.compare c = .eq := ReflCmp.compare_self
    rw [List.cons_append, List.cons_append, compareComponents, ih, hc]
    rfl

/-- Relative paths keep their order behind a path. -/
theorem compare_join {base p q : Path} (hbase : base.bytes ≠ []) (hp : p.isAbsolute = false)
    (hq : q.isAbsolute = false) (h : p.leader = q.leader) :
    compare (base.join p) (base.join q) = compare p q := by
  rw [compare, compare, components, components, components, components, leader_join hp hbase,
    leader_join hq hbase, steps_join hp, steps_join hq, ← List.append_assoc, ← List.append_assoc,
    compareComponents_append_left, h, compareComponents_append_left]

theorem same_iff {p q : Path} : p.same q ↔ p.components = q.components :=
  beq_iff_eq

abbrev Increasing (ps : List Path) : Prop := ps.Pairwise fun p q => compare p q = .lt

theorem mem_of_mem_insertOrdered {p q : Path} {ps : List Path} (h : q ∈ insertOrdered p ps) :
    q = p ∨ q ∈ ps := by
  fun_induction insertOrdered p ps with
  | case1 => simpa using h
  | case2 r ps hlt => simpa using h
  | case3 r ps heq =>
    rcases List.mem_cons.1 h with rfl | h
    · exact .inl rfl
    · exact .inr (List.mem_cons_of_mem r h)
  | case4 r ps hgt ih =>
    rcases List.mem_cons.1 h with rfl | h
    · exact .inr List.mem_cons_self
    · exact (ih h).imp_right (List.mem_cons_of_mem r)

/-- Putting a path in its place leaves no other spelling of it. -/
theorem eq_or_ne_of_mem_insertOrdered {p q : Path} {ps : List Path} (hps : Increasing ps)
    (h : q ∈ insertOrdered p ps) : q = p ∨ q ∈ ps ∧ q.components ≠ p.components := by
  have hne {a b : Path} (hab : compare a b = .lt) : b.components ≠ a.components := fun he =>
    nomatch hab.symm.trans (compare_eq_eq_iff.2 he.symm)
  fun_induction insertOrdered p ps with
  | case1 => exact .inl (List.mem_singleton.1 h)
  | case2 r ps hlt =>
    refine (List.mem_cons.1 h).imp_right fun hq => ⟨hq, ?_⟩
    rcases List.mem_cons.1 hq with rfl | hq
    · exact hne hlt
    · exact hne (TransCmp.lt_trans hlt (List.rel_of_pairwise_cons hps hq))
  | case3 r ps heq =>
    refine (List.mem_cons.1 h).imp_right fun hq => ⟨List.mem_cons_of_mem r hq, ?_⟩
    exact hne (TransCmp.lt_of_eq_of_lt heq (List.rel_of_pairwise_cons hps hq))
  | case4 r ps hgt ih =>
    rcases List.mem_cons.1 h with rfl | hq
    · exact .inr ⟨List.mem_cons_self, (hne (OrientedCmp.lt_of_gt hgt)).symm⟩
    · exact (ih (List.Pairwise.of_cons hps) hq).imp_right fun ⟨hq, hc⟩ =>
        ⟨List.mem_cons_of_mem r hq, hc⟩

theorem increasing_insertOrdered (p : Path) {ps : List Path} (h : Increasing ps) :
    Increasing (insertOrdered p ps) := by
  fun_induction insertOrdered p ps with
  | case1 => exact List.pairwise_singleton _ p
  | case2 r ps hlt =>
    refine List.pairwise_cons.2 ⟨List.forall_mem_cons.2 ⟨hlt, fun q hq => ?_⟩, h⟩
    exact TransCmp.lt_trans hlt (List.rel_of_pairwise_cons h hq)
  | case3 r ps heq =>
    obtain ⟨hr, hps⟩ := List.pairwise_cons.1 h
    exact List.pairwise_cons.2 ⟨fun q hq => TransCmp.lt_of_eq_of_lt heq (hr q hq), hps⟩
  | case4 r ps hgt ih =>
    obtain ⟨hr, hps⟩ := List.pairwise_cons.1 h
    refine List.pairwise_cons.2 ⟨fun q hq => ?_, ih hps⟩
    rcases mem_of_mem_insertOrdered hq with rfl | hq
    · exact OrientedCmp.lt_of_gt hgt
    · exact hr q hq

theorem mem_map_components_insertOrdered (p : Path) (ps : List Path) (cs : List Component) :
    cs ∈ (insertOrdered p ps).map components ↔ cs = p.components ∨ cs ∈ ps.map components := by
  fun_induction insertOrdered p ps with
  | case1 => simp
  | case2 r ps hlt => simp
  | case3 r ps heq => simp [compare_eq_eq_iff.1 heq]
  | case4 r ps hgt ih =>
    rw [List.map_cons, List.mem_cons, ih, List.map_cons, List.mem_cons]
    exact or_left_comm

theorem mem_of_mem_sortDistinct {p : Path} {ps : List Path} (h : p ∈ sortDistinct ps) : p ∈ ps := by
  induction ps with
  | nil => exact h
  | cons q ps ih =>
    rcases mem_of_mem_insertOrdered h with rfl | h
    · exact List.mem_cons_self
    · exact List.mem_cons_of_mem q (ih h)

theorem increasing_sortDistinct (ps : List Path) : Increasing (sortDistinct ps) := by
  induction ps with
  | nil => exact List.Pairwise.nil
  | cons p ps ih => exact increasing_insertOrdered p ih

/-- Of the spellings of a path, those in front win. -/
theorem mem_left_of_mem_sortDistinct {p q : Path} {ps qs : List Path}
    (h : p ∈ sortDistinct (ps ++ qs)) (hq : q ∈ ps) (hs : q.same p) : p ∈ ps := by
  induction ps with
  | nil => cases hq
  | cons r ps ih =>
    rcases eq_or_ne_of_mem_insertOrdered (increasing_sortDistinct (ps ++ qs)) h with
      rfl | ⟨h, hne⟩
    · exact List.mem_cons_self
    · rcases List.mem_cons.1 hq with rfl | hq
      · exact absurd (same_iff.1 hs).symm hne
      · exact List.mem_cons_of_mem r (ih h hq)

/-- Sorting loses no path, though it may lose a spelling. -/
theorem mem_map_components_sortDistinct (ps : List Path) (cs : List Component) :
    cs ∈ (sortDistinct ps).map components ↔ cs ∈ ps.map components := by
  induction ps with
  | nil => rfl
  | cons p ps ih =>
    rw [List.map_cons, List.mem_cons, ← ih]
    exact mem_map_components_insertOrdered p (sortDistinct ps) cs

theorem insertOrdered_map {f : Path → Path} {p : Path} {ps : List Path}
    (h : ∀ q ∈ ps, compare (f p) (f q) = compare p q) :
    insertOrdered (f p) (ps.map f) = (insertOrdered p ps).map f := by
  induction ps with
  | nil => rfl
  | cons q ps ih =>
    obtain ⟨hq, hps⟩ := List.forall_mem_cons.1 h
    rw [List.map_cons, insertOrdered, insertOrdered, hq]
    cases compare p q with
    | lt => rfl
    | eq => rfl
    | gt => exact congrArg (f q :: ·) (ih hps)

/-- Sorting commutes with a map that keeps the order of the paths. -/
theorem sortDistinct_map {f : Path → Path} {ps : List Path}
    (h : ∀ p ∈ ps, ∀ q ∈ ps, compare (f p) (f q) = compare p q) :
    sortDistinct (ps.map f) = (sortDistinct ps).map f := by
  induction ps with
  | nil => rfl
  | cons p ps ih =>
    have hsort := ih fun a ha b hb => h a (List.mem_cons_of_mem p ha) b (List.mem_cons_of_mem p hb)
    refine (congrArg (insertOrdered (f p)) hsort).trans (insertOrdered_map fun q hq => ?_)
    exact h p List.mem_cons_self q (List.mem_cons_of_mem p (mem_of_mem_sortDistinct hq))

theorem Increasing.pairwise_components {ps : List Path} (h : Increasing ps) :
    (ps.map components).Pairwise fun a b => compareComponents a b = .lt :=
  List.pairwise_map.2 h

theorem Increasing.nodup_components {ps : List Path} (h : Increasing ps) :
    (ps.map components).Nodup := by
  refine h.pairwise_components.imp ?_
  rintro cs _ h rfl
  exact OrientedCmp.not_lt_of_lt h h

/-- Paths in strictly increasing order are determined by what they are. -/
theorem Increasing.map_components_eq {ps qs : List Path} (hp : Increasing ps) (hq : Increasing qs)
    (h : ∀ cs, cs ∈ ps.map components ↔ cs ∈ qs.map components) :
    ps.map components = qs.map components := by
  refine List.Perm.eq_of_pairwise ?_ hp.pairwise_components hq.pairwise_components
    ((List.perm_ext_iff_of_nodup hp.nodup_components hq.nodup_components).2 h)
  intro a b _ _ hab hba
  exact absurd hba (OrientedCmp.not_lt_of_lt hab)

end Path
end FenceSync
