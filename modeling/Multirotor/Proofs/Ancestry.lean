import Mathlib
import Multirotor.Ancestry

/-!
# Breadth-first order

Every node below a root has one depth. The breadth-first order runs through
the depths, so it repeats no node and has parents before their children. It
is a queue: after the root come the children of its own nodes, one after the
other (`breadthFirst_eq`). The children of one node stand in it in their order
(`filter_breadthFirst_eq_children`).
-/

namespace Multirotor

namespace Ancestry

variable {n : Nat} {parent : Fin n → Option (Fin n)} {root : Fin n}

theorem mem_children {p i : Fin n} : i ∈ children parent p ↔ parent i = some p := by
  simp [children]

theorem nodup_children (p : Fin n) : (children parent p).Nodup :=
  (List.nodup_finRange n).filter _

/-- The node is `k` steps below the root. -/
inductive Depth (parent : Fin n → Option (Fin n)) (root : Fin n) : Nat → Fin n → Prop where
  | root : Depth parent root 0 root
  | child {k : Nat} {p i : Fin n} :
    parent i = some p → Depth parent root k p → Depth parent root (k + 1) i

section
variable (hroot : parent root = none)
include hroot

theorem Depth.unique {j k : Nat} {i : Fin n} (hj : Depth parent root j i)
    (hk : Depth parent root k i) : j = k := by
  induction hj generalizing k with
  | root =>
    cases hk with
    | root => rfl
    | child hp _ => simp [hroot] at hp
  | child hp _ ih =>
    cases hk with
    | root => simp [hroot] at hp
    | child hp' hk' =>
      rw [hp, Option.some.injEq] at hp'
      rw [ih (hp' ▸ hk')]

theorem Depth.of_parent {j k : Nat} {i p : Fin n} (hi : Depth parent root k i)
    (hp : Depth parent root j p) (h : parent i = some p) : k = j + 1 :=
  hi.unique hroot (.child h hp)

end

/-! ## Levels -/

section
variable {k steps : Nat} {level : List (Fin n)}

theorem depth_of_mem_next (hl : ∀ i ∈ level, Depth parent root k i) :
    ∀ i ∈ level.flatMap (children parent), Depth parent root (k + 1) i := by
  intro i hi
  obtain ⟨p, hp, hc⟩ := List.mem_flatMap.mp hi
  exact .child (mem_children.mp hc) (hl p hp)

theorem depth_of_mem_levels (hl : ∀ i ∈ level, Depth parent root k i) {i : Fin n}
    (hi : i ∈ levels parent steps level) : ∃ j, k ≤ j ∧ Depth parent root j i := by
  induction steps generalizing level k with
  | zero => simp [levels] at hi
  | succ steps ih =>
    cases level with
    | nil => simp [levels] at hi
    | cons a level =>
      rw [levels] at hi
      rcases List.mem_append.mp hi with hi | hi
      · exact ⟨k, le_rfl, hl i hi⟩
      · obtain ⟨j, hj, hd⟩ := ih (depth_of_mem_next hl) hi
        exact ⟨j, by omega, hd⟩
      · simp

theorem nodup_next (hnd : level.Nodup) : (level.flatMap (children parent)).Nodup := by
  refine List.nodup_flatMap.mpr ⟨fun p _ => nodup_children p, hnd.imp fun {p q} hne i hp hq => ?_⟩
  rw [mem_children] at hp hq
  exact hne (Option.some.inj (hp.symm.trans hq))

/-- The depths do not decrease along the levels. -/
theorem pairwise_levels (hroot : parent root = none) (hnd : level.Nodup)
    (hl : ∀ i ∈ level, Depth parent root k i) :
    (levels parent steps level).Pairwise fun a b =>
      a ≠ b ∧ ∃ i j, i ≤ j ∧ Depth parent root i a ∧ Depth parent root j b := by
  induction steps generalizing level k with
  | zero => simp [levels]
  | succ steps ih =>
    cases level with
    | nil => simp [levels]
    | cons a level =>
      rw [levels]
      · refine List.pairwise_append.mpr ⟨?_, ih (nodup_next hnd) (depth_of_mem_next hl), ?_⟩
        · exact hnd.imp_of_mem fun hi hj hne => ⟨hne, k, k, le_rfl, hl _ hi, hl _ hj⟩
        · intro i hi j hj
          obtain ⟨d, hd, hdj⟩ := depth_of_mem_levels (depth_of_mem_next hl) hj
          refine ⟨?_, k, d, by omega, hl i hi, hdj⟩
          rintro rfl
          have := (hl i hi).unique hroot hdj
          omega
      · simp

end

/-! ## The order -/

theorem exists_depth {i : Fin n} (h : i ∈ breadthFirst parent root) :
    ∃ k, Depth parent root k i := by
  have hstart : ∀ j ∈ [root], Depth parent root 0 j := fun j hj =>
    List.mem_singleton.mp hj ▸ .root
  obtain ⟨k, -, hk⟩ := depth_of_mem_levels hstart h
  exact ⟨k, hk⟩

section
variable (hroot : parent root = none)
include hroot

theorem pairwise_breadthFirst : (breadthFirst parent root).Pairwise fun a b =>
    a ≠ b ∧ ∃ i j, i ≤ j ∧ Depth parent root i a ∧ Depth parent root j b := by
  refine pairwise_levels (k := 0) hroot (List.nodup_singleton root) fun i hi => ?_
  rw [List.mem_singleton.mp hi]
  exact .root

theorem nodup_breadthFirst : (breadthFirst parent root).Nodup :=
  (pairwise_breadthFirst hroot).imp fun h => h.1

/-- No node comes before its parent. -/
theorem parent_first : (breadthFirst parent root).Pairwise fun a b => parent a ≠ some b := by
  refine (pairwise_breadthFirst hroot).imp fun {a b} ⟨_, i, j, hij, ha, hb⟩ hp => ?_
  have := ha.of_parent hroot hb hp
  omega

theorem parent_ne_self {i : Fin n} (hi : i ∈ breadthFirst parent root) : parent i ≠ some i := by
  intro hp
  obtain ⟨k, hk⟩ := exists_depth hi
  have := hk.of_parent hroot hk hp
  omega

end

/-! ## Lineages -/

/-- The last `steps` nodes before `i`, and `i`. -/
def climb (parent : Fin n → Option (Fin n)) : Nat → Fin n → List (Fin n)
  | 0, i => [i]
  | steps + 1, i => match parent i with
    | none => [i]
    | some p => climb parent steps p ++ [i]

/-- The way from the root down to a node; it visits at most `n` nodes. -/
def lineage (parent : Fin n → Option (Fin n)) (i : Fin n) : List (Fin n) := climb parent n i

section
variable {k : Nat} {i p : Fin n}

theorem Depth.exists_of_le {j : Nat} (h : Depth parent root k i) (hj : j ≤ k) :
    ∃ p, Depth parent root j p := by
  induction h with
  | root => exact ⟨root, Nat.le_zero.mp hj ▸ .root⟩
  | @child k p i hp hk ih =>
    rcases Nat.le_succ_iff.mp hj with hj | rfl
    · exact ih hj
    · exact ⟨i, .child hp hk⟩

variable (hroot : parent root = none)
include hroot

/-- There is a node of every smaller depth, and nodes of different depths are different. -/
theorem Depth.lt (h : Depth parent root k i) : k < n := by
  choose f hf using fun j : Fin (k + 1) => h.exists_of_le (Nat.le_of_lt_succ j.isLt)
  have hinj : Function.Injective f := by
    intro a b hab
    have hb := hf b
    rw [← hab] at hb
    exact Fin.ext ((hf a).unique hroot hb)
  simpa using Fintype.card_le_of_injective f hinj

theorem Depth.climb_of_le (h : Depth parent root k i) {steps : Nat} (hs : k ≤ steps) :
    climb parent steps i = climb parent k i := by
  induction h generalizing steps with
  | root => cases steps <;> simp [climb, hroot]
  | @child k p i hp hk ih =>
    obtain ⟨steps, rfl⟩ : ∃ s, steps = s + 1 := ⟨steps - 1, by omega⟩
    simp only [climb, hp]
    rw [ih (by omega)]

theorem lineage_root : lineage parent root = [root] := by
  rw [lineage, Depth.root.climb_of_le hroot (Nat.zero_le n)]
  rfl

theorem Depth.lineage_child (h : Depth parent root k p) (hp : parent i = some p) :
    lineage parent i = lineage parent p ++ [i] := by
  have hi := Depth.child hp h
  have hlt := hi.lt hroot
  rw [lineage, lineage, hi.climb_of_le hroot (by omega), h.climb_of_le hroot (by omega)]
  simp only [climb, hp]

end

/-! ## Complete orders -/

theorem mem_of_nodup {l : List (Fin n)} (hnd : l.Nodup) (hlen : l.length = n) (i : Fin n) :
    i ∈ l := by
  have huniv : l.toFinset = Finset.univ := by
    rw [← Finset.card_eq_iff_eq_univ, List.toFinset_card_of_nodup hnd, hlen, Fintype.card_fin]
  exact List.mem_toFinset.mp (huniv ▸ Finset.mem_univ i)

theorem length_of_complete {l : List (Fin n)} (hnd : l.Nodup) (hall : ∀ i, i ∈ l) :
    l.length = n := by
  have huniv : l.toFinset = Finset.univ := by
    rw [Finset.eq_univ_iff_forall]
    intro i
    exact List.mem_toFinset.mpr (hall i)
  rw [← List.toFinset_card_of_nodup hnd, huniv, Finset.card_univ, Fintype.card_fin]

/-! ## The order as a queue -/

theorem levels_nil (steps : Nat) : levels parent steps [] = [] := by
  cases steps <;> rfl

theorem levels_succ (steps : Nat) (level : List (Fin n)) : levels parent (steps + 1) level =
    level ++ levels parent steps (level.flatMap (children parent)) := by
  cases level with
  | nil => simp [levels_nil]
  | cons a level => simp only [levels]

theorem sorted_children (p : Fin n) : (children parent p).Pairwise (· < ·) :=
  (List.pairwise_lt_finRange n).filter _

section
variable (hroot : parent root = none)
include hroot

/-- The steps are enough: no node is as deep as there are nodes. -/
theorem levels_eq {k steps : Nat} {level : List (Fin n)} (hk : n ≤ k + steps)
    (hl : ∀ i ∈ level, Depth parent root k i) : levels parent steps level =
      level ++ (levels parent steps level).flatMap (children parent) := by
  induction steps generalizing level k with
  | zero =>
    have hempty : level = [] := by
      apply List.eq_nil_iff_forall_not_mem.mpr
      intro i hi
      have := (hl i hi).lt hroot
      omega
    subst hempty
    rfl
  | succ steps ih =>
    have hnext := ih (by omega) (depth_of_mem_next hl)
    rw [levels_succ, List.flatMap_append, ← hnext]

/-- The children of its nodes follow one after the other. -/
theorem breadthFirst_eq :
    breadthFirst parent root = root :: (breadthFirst parent root).flatMap (children parent) := by
  refine levels_eq (k := 0) hroot (by omega) fun i hi => ?_
  rw [List.mem_singleton.mp hi]
  exact .root

theorem Depth.mem_breadthFirst {k : Nat} {i : Fin n} (h : Depth parent root k i) :
    i ∈ breadthFirst parent root := by
  induction h with
  | root =>
    rw [breadthFirst_eq hroot]
    exact List.mem_cons_self
  | child hp _ ih =>
    rw [breadthFirst_eq hroot]
    exact List.mem_cons_of_mem _ (List.mem_flatMap.mpr ⟨_, ih, mem_children.mpr hp⟩)

/-- The children of one node come in the order of their numbers. -/
theorem sorted_siblings : (breadthFirst parent root).Pairwise fun a b =>
    parent a = parent b → a < b := by
  rw [breadthFirst_eq hroot]
  refine List.pairwise_cons.mpr ⟨?_, List.pairwise_flatMap.mpr ⟨?_, ?_⟩⟩
  · intro i hi he
    obtain ⟨p, -, hp⟩ := List.mem_flatMap.mp hi
    rw [hroot, mem_children.mp hp] at he
    cases he
  · intro p _
    refine List.Pairwise.imp ?_ (sorted_children p)
    intro a b hlt _
    exact hlt
  · refine (nodup_breadthFirst hroot).imp fun {p q} hne a ha b hb he => ?_
    rw [mem_children.mp ha, mem_children.mp hb] at he
    exact absurd (Option.some.inj he) hne

/-- Where the order goes through all nodes, so does it through the children of each. -/
theorem filter_breadthFirst_eq_children (hall : ∀ i, i ∈ breadthFirst parent root) (p : Fin n) :
    ((breadthFirst parent root).filter fun i => parent i == some p) = children parent p := by
  refine List.Pairwise.eq_of_mem_iff (r := (· < ·)) ?_ (sorted_children p) fun i => ?_
  · refine List.pairwise_filter.mpr ((sorted_siblings hroot).imp fun hlt ha hb => hlt ?_)
    exact (eq_of_beq ha).trans (eq_of_beq hb).symm
  · rw [List.mem_filter, mem_children, beq_iff_eq, and_iff_right (hall i)]

end

/-! ## Values of the nodes -/

section
variable {β : Type} (values : Vector β n) (i : Fin n) (b : β)

theorem get_assign_self : (assign values i b).get i = b := by
  simp [assign, Vector.get_eq_getElem]

theorem get_assign_of_ne {j : Fin n} (h : j ≠ i) : (assign values i b).get j = values.get j := by
  have hne : i.val ≠ j.val := fun e => h (Fin.ext e.symm)
  simp [assign, Vector.get_eq_getElem, Vector.getElem_set_ne, hne]

end

end Ancestry

end Multirotor
