import Multirotor.Proofs.Moments
import Multirotor.Proofs.Placement
import Multirotor.Groups

/-!
# Groups keep the moments

Gathering runs from the leaves to the root. At every step the moments of the
groups found so far, with what segments still hand up and what additions have
dropped, are those of the segments gathered so far, each at its own frame
(`Gathered`). At the end nothing is left to hand up (`held_add_dropped`), and
segments without negative mass have nothing dropped (`moments_groups`).
-/

namespace Multirotor

namespace Tree

/-! ## Gathering -/

section
variable {α : Type} [Scalar α] {t : Tree α} {groups : List (InertiaGroup α t.size)}
  {i p : Fin t.size}

omit [Scalar α] in
theorem isBase_of_parent (hp : (t.segment i).parent = some p) :
    t.isBase i = (t.segment i).joint.kind.isRevolute := by
  rw [isBase, hp]
  rfl

omit [Scalar α] in
theorem not_isBase (hp : (t.segment i).parent = some p)
    (hi : (t.segment i).joint.kind.isRevolute = false) : ¬t.isBase i = true := by
  rw [isBase_of_parent hp, hi]
  exact Bool.false_ne_true

theorem gather_of_isBase (hi : t.isBase i = true)
    (state : Vector (Inertia α) t.size × List (InertiaGroup α t.size)) : t.gather i state =
      (state.1, ⟨i, (t.segment i).name, t.gathered state.1 i⟩ :: state.2) := if_pos hi

theorem gather_of_not_isBase (hi : ¬t.isBase i = true)
    (state : Vector (Inertia α) t.size × List (InertiaGroup α t.size)) : t.gather i state =
      (Ancestry.assign state.1 i (t.gathered state.1 i), state.2) := if_neg hi

theorem get_replicate (i : Fin t.size) : (Vector.replicate t.size (0 : Inertia α)).get i = 0 :=
  Vector.getElem_replicate _

theorem groups_eq_ok (h : t.groups = .ok groups) :
    (t.order.foldr t.gather (Vector.replicate t.size 0, [])).2 = groups ∧
      groups.countP (fun g => (t.segment g.base).parent.isNone) = 1 := by
  unfold Tree.groups at h
  dsimp only at h
  split at h
  · cases h
    exact ⟨rfl, ‹_›⟩
  · cases h

end

end Tree

/-! ## What gathering preserves -/

/-- Holds of no body at all, and goes on to hold of bodies put together or seen from elsewhere. -/
structure Inertia.Preserved {α : Type} [Scalar α] (P : Inertia α → Prop) : Prop where
  zero : P 0
  add : ∀ {a b}, P a → P b → P (a + b)
  transformed : ∀ {i}, P i → ∀ frame, P (i.transformed frame)

theorem Inertia.preserved_mass : Preserved fun i : Inertia ℝ => 0 ≤ i.mass :=
  ⟨le_rfl, add_nonneg, fun h _ => h⟩

namespace Inertia.Preserved

variable {α : Type} [Scalar α] {P : Inertia α → Prop} (hP : Preserved P)
include hP

theorem foldl {β : Type} {f : β → Inertia α} {l : List β} {i : Inertia α} (hi : P i)
    (hl : ∀ x ∈ l, P (f x)) : P (l.foldl (fun sum x => sum + f x) i) := by
  induction l generalizing i with
  | nil => exact hi
  | cons x l ih =>
    obtain ⟨hx, hl⟩ := List.forall_mem_cons.mp hl
    exact ih (hP.add hi hx) hl

variable {t : Tree α} (hs : ∀ i, P (t.segment i).inertia)
include hs

theorem gathered {carried : Vector (Inertia α) t.size} (hc : ∀ i, P (carried.get i))
    (a : Fin t.size) : P (t.gathered carried a) :=
  hP.foldl (hs a) fun c _ => hP.transformed (hc c) _

theorem foldr_gather (l : List (Fin t.size)) :
    (∀ i, P ((l.foldr t.gather (Vector.replicate t.size 0, [])).1.get i)) ∧
      ∀ g ∈ (l.foldr t.gather (Vector.replicate t.size 0, [])).2, P g.inertia := by
  induction l with
  | nil => exact ⟨fun i => (Tree.get_replicate i).symm ▸ hP.zero, by simp⟩
  | cons a l ih =>
    rw [List.foldr_cons]
    generalize l.foldr t.gather (Vector.replicate t.size 0, []) = state at ih ⊢
    obtain ⟨hc, hg⟩ := ih
    have h0 := hP.gathered hs hc a
    by_cases ha : t.isBase a = true
    · rw [Tree.gather_of_isBase ha]
      exact ⟨hc, List.forall_mem_cons.mpr ⟨h0, hg⟩⟩
    · rw [Tree.gather_of_not_isBase ha]
      refine ⟨fun i => ?_, hg⟩
      by_cases hi : i = a
      · rw [hi, Ancestry.get_assign_self]
        exact h0
      · rw [Ancestry.get_assign_of_ne _ _ _ hi]
        exact hc i

theorem groups {groups : List (InertiaGroup α t.size)} (h : t.groups = .ok groups) :
    ∀ g ∈ groups, P g.inertia := by
  rw [← (Tree.groups_eq_ok h).1]
  exact (hP.foldr_gather hs t.order).2

end Inertia.Preserved

namespace Tree

/-! ## Moments at each step -/

variable {t : Tree ℝ} {q : Coordinates ℝ} {frames : Placement ℝ t.size}

noncomputable def seenAt (frames : Placement ℝ t.size) (i : Fin t.size) (b : Inertia ℝ) : Moments :=
  Moments.seen (frames.get i) b.moments

theorem seenAt_zero (i : Fin t.size) : seenAt frames i 0 = 0 := by
  rw [seenAt, Inertia.moments_zero, map_zero]

noncomputable def held (frames : Placement ℝ t.size) (groups : List (InertiaGroup ℝ t.size)) :
    Moments :=
  (groups.map fun g => seenAt frames g.base g.inertia).sum

/-- Moments of what is handed up to segments that are still to come. -/
noncomputable def pending (t : Tree ℝ) (frames : Placement ℝ t.size) (done : List (Fin t.size))
    (carried : Vector (Inertia ℝ) t.size) : Moments :=
  ∑ i with ∀ p ∈ done, (t.segment i).parent ≠ some p, seenAt frames i (carried.get i)

/-- The additions at a segment to which its children hand up what they carry. -/
noncomputable def gathering (t : Tree ℝ) (frames : Placement ℝ t.size)
    (carried : Vector (Inertia ℝ) t.size) (i : Fin t.size) : List Addition :=
  Addition.running (frames.get i) (fun c => (carried.get c).transformed (t.segment c).offset)
    (t.segment i).inertia (t.segment i).children

/-- The additions at all of the segments, gathered from the last to the first. -/
noncomputable def additions (t : Tree ℝ) (frames : Placement ℝ t.size) :
    List (Fin t.size) → List Addition
  | [] => []
  | a :: l => t.gathering frames (l.foldr t.gather (Vector.replicate t.size 0, [])).1 a ++
      t.additions frames l

/-- The segments `done` are gathered: none counts twice, and none is lost but for what is dropped. -/
structure Gathered (t : Tree ℝ) (frames : Placement ℝ t.size) (done : List (Fin t.size))
    (dropped : Moments) (state : Vector (Inertia ℝ) t.size × List (InertiaGroup ℝ t.size)) :
    Prop where
  carried_zero : ∀ i, i ∉ done ∨ t.isBase i → state.1.get i = 0
  group_name : ∀ g ∈ state.2, g.name = (t.segment g.base).name
  total : held frames state.2 + pending t frames done state.1 + dropped =
    (done.map fun i => seenAt frames i (t.segment i).inertia).sum

section
variable {carried : Vector (Inertia ℝ) t.size} {done : List (Fin t.size)} {a : Fin t.size}

theorem sum_children (hw : t.WellFormed) (a : Fin t.size) (f : Fin t.size → Moments) :
    ((t.segment a).children.map f).sum = ∑ c with (t.segment c).parent = some a, f c := by
  rw [← List.sum_toFinset f hw.nodup_children]
  refine Finset.sum_congr (Finset.ext fun c => ?_) fun _ _ => rfl
  rw [List.mem_toFinset, hw.mem_children, Finset.mem_filter]
  simp only [Finset.mem_univ, true_and]

theorem pending_cons (ha : a ∉ done) :
    pending t frames done carried =
      (∑ c with (t.segment c).parent = some a, seenAt frames c (carried.get c)) +
        pending t frames (a :: done) carried := by
  rw [pending, ← Finset.sum_filter_add_sum_filter_not _ fun c => (t.segment c).parent = some a,
    Finset.filter_filter, Finset.filter_filter]
  congr 1
  · refine Finset.sum_congr (Finset.filter_congr fun c _ => ?_) fun _ _ => rfl
    refine ⟨fun h => h.2, fun h => ⟨fun p hp e => ha ?_, h⟩⟩
    rwa [Option.some.inj (h.symm.trans e)]
  · refine Finset.sum_congr (Finset.filter_congr fun c _ => ?_) fun _ _ => rfl
    rw [List.forall_mem_cons, and_comm]

theorem pending_assign (h0 : carried.get a = 0) (ha : ∀ p ∈ done, (t.segment a).parent ≠ some p)
    (b : Inertia ℝ) : pending t frames done (Ancestry.assign carried a b) =
      pending t frames done carried + seenAt frames a b := by
  have hmem : a ∈ Finset.univ.filter fun i => ∀ p ∈ done, (t.segment i).parent ≠ some p :=
    Finset.mem_filter.mpr ⟨Finset.mem_univ a, ha⟩
  rw [pending, pending, ← Finset.add_sum_erase _ _ hmem, ← Finset.add_sum_erase _ _ hmem, h0,
    seenAt_zero, zero_add, Ancestry.get_assign_self, add_comm]
  congr 1
  refine Finset.sum_congr rfl fun i hi => ?_
  rw [Ancestry.get_assign_of_ne _ _ _ (Finset.ne_of_mem_erase hi)]

section
variable (hw : t.WellFormed) (ht : t.Rigid) (h : t.place q = .ok frames)
include hw ht h

/-- What a child hands up counts the same in its own frame and in that of its parent. -/
theorem seenAt_child (hbase : ∀ i, t.isBase i → carried.get i = 0) {c : Fin t.size}
    (hc : (t.segment c).parent = some a) :
    seenAt frames a ((carried.get c).transformed (t.segment c).offset) =
      seenAt frames c (carried.get c) := by
  by_cases hb : t.isBase c
  · rw [hbase c hb, seenAt_zero, seenAt, Inertia.moments_transformed (ht.offset c),
      Inertia.moments_zero, map_zero, map_zero]
  · have hk : (t.segment c).joint.kind.isRevolute = false :=
      Bool.eq_false_of_not_eq_true (isBase_of_parent hc ▸ hb)
    rw [seenAt, seenAt, ← Inertia.moments_transformed (ht.place h a),
      Inertia.transformed_transformed (ht.place h a) (ht.offset c), ← hw.get_of_fixed h hc hk,
      Inertia.moments_transformed (ht.place h c)]

theorem seenAt_gathered (hbase : ∀ i, t.isBase i → carried.get i = 0) :
    seenAt frames a (t.gathered carried a) + Addition.droppedBy (t.gathering frames carried a) =
      seenAt frames a (t.segment a).inertia +
        ∑ c with (t.segment c).parent = some a, seenAt frames c (carried.get c) := by
  refine (Addition.seen_foldl _ _).trans ?_
  rw [sum_children hw, seenAt]
  congr 1
  refine Finset.sum_congr rfl fun c hc => ?_
  exact seenAt_child hw ht h hbase (Finset.mem_filter.mp hc).2

theorem Gathered.gather {dropped : Moments}
    {state : Vector (Inertia ℝ) t.size × List (InertiaGroup ℝ t.size)}
    (hg : Gathered t frames done dropped state) (ha : a ∉ done)
    (hfirst : ∀ b ∈ done, (t.segment a).parent ≠ some b) :
    Gathered t frames (a :: done)
      (Addition.droppedBy (t.gathering frames state.1 a) + dropped) (t.gather a state) := by
  obtain ⟨carried, groups⟩ := state
  obtain ⟨hzero, hname, htotal⟩ := hg
  have hbase : ∀ i, t.isBase i → carried.get i = 0 := fun i hi => hzero i (.inr hi)
  have hsum := seenAt_gathered hw ht h (a := a) hbase
  have hpend : pending t frames done carried =
      (∑ c with (t.segment c).parent = some a, seenAt frames c (carried.get c)) +
        pending t frames (a :: done) carried := pending_cons ha
  have hnew : ∀ i, i ∉ a :: done ∨ t.isBase i → i ∉ done ∨ t.isBase i := fun i hi =>
    hi.imp_left fun hn hm => hn (List.mem_cons_of_mem _ hm)
  by_cases hb : t.isBase a = true
  · rw [gather_of_isBase hb]
    refine ⟨fun i hi => hzero i (hnew i hi), List.forall_mem_cons.mpr ⟨rfl, hname⟩, ?_⟩
    rw [List.map_cons, List.sum_cons, ← htotal, hpend, held, List.map_cons, List.sum_cons]
    change seenAt frames a (t.gathered carried a) + held frames groups + _ + _ =
      _ + (held frames groups + _ + _)
    rw [eq_sub_of_add_eq hsum]
    abel
  · have hafter : ∀ p ∈ a :: done, (t.segment a).parent ≠ some p :=
      List.forall_mem_cons.mpr ⟨hw.parent_ne_self a, hfirst⟩
    rw [gather_of_not_isBase hb]
    refine ⟨fun i hi => ?_, hname, ?_⟩
    · have hne : i ≠ a := by
        rintro rfl
        exact hi.elim (fun hn => hn List.mem_cons_self) hb
      rw [Ancestry.get_assign_of_ne _ _ _ hne]
      exact hzero i (hnew i hi)
    · rw [List.map_cons, List.sum_cons, ← htotal, hpend,
        pending_assign (hzero a (.inl ha)) hafter, eq_sub_of_add_eq hsum]
      abel

theorem gathered_foldr {l : List (Fin t.size)} (hnd : l.Nodup)
    (hfirst : l.Pairwise fun a b => (t.segment a).parent ≠ some b) :
    Gathered t frames l (Addition.droppedBy (t.additions frames l))
      (l.foldr t.gather (Vector.replicate t.size 0, [])) := by
  induction l with
  | nil =>
    refine ⟨fun i _ => get_replicate i, by simp, ?_⟩
    simp [held, pending, seenAt_zero, additions, Addition.droppedBy]
  | cons a l ih =>
    obtain ⟨ha, hnd⟩ := List.nodup_cons.mp hnd
    obtain ⟨hpa, hfirst⟩ := List.pairwise_cons.mp hfirst
    rw [additions, Addition.droppedBy_append]
    exact (ih hnd hfirst).gather hw ht h ha hpa

/-- The groups of a tree at the frames of their bases have the moments of its segments, each at its
own frame, but for what the additions dropped. -/
theorem held_add_dropped {groups : List (InertiaGroup ℝ t.size)} (hg : t.groups = .ok groups) :
    held frames groups + Addition.droppedBy (t.additions frames t.order) =
        ∑ i, seenAt frames i (t.segment i).inertia ∧
      ∀ g ∈ groups, g.name = (t.segment g.base).name := by
  obtain ⟨rfl, -⟩ := groups_eq_ok hg
  obtain ⟨hzero, hname, htotal⟩ := gathered_foldr hw ht h hw.nodup hw.parent_first
  refine ⟨?_, hname⟩
  -- What is still pending has no parent, and a base hands nothing up.
  have hpend : pending t frames t.order (t.order.foldr t.gather
      (Vector.replicate t.size 0, [])).1 = 0 := by
    refine Finset.sum_eq_zero fun i hi => ?_
    have hi := (Finset.mem_filter.mp hi).2
    have hnone : (t.segment i).parent = none :=
      Option.eq_none_iff_forall_ne_some.mpr fun p => hi p (hw.complete p)
    rw [hzero i (.inr (by simp [isBase, hnone])), seenAt_zero]
  have hall : t.order.toFinset = Finset.univ :=
    Finset.eq_univ_of_forall fun i => List.mem_toFinset.mpr (hw.complete i)
  rw [hpend, add_zero] at htotal
  rw [htotal, ← List.sum_toFinset _ hw.nodup, hall]

end

/-! ## Without negative mass -/

section
variable (hmass : ∀ i, 0 ≤ (t.segment i).inertia.mass)
include hmass

theorem mass_groups {groups : List (InertiaGroup ℝ t.size)} (h : t.groups = .ok groups) :
    ∀ g ∈ groups, 0 ≤ g.inertia.mass := Inertia.preserved_mass.groups hmass h

theorem droppedBy_additions (l : List (Fin t.size)) :
    Addition.droppedBy (t.additions frames l) = 0 := by
  induction l with
  | nil => rfl
  | cons a l ih =>
    rw [additions, Addition.droppedBy_append, ih, add_zero]
    exact Addition.droppedBy_running _ (hmass a) fun c _ =>
      (Inertia.preserved_mass.foldr_gather hmass l).1 c

theorem moments_groups (hw : t.WellFormed) (ht : t.Rigid) (h : t.place q = .ok frames)
    {groups : List (InertiaGroup ℝ t.size)} (hg : t.groups = .ok groups) :
    held frames groups = ∑ i, seenAt frames i (t.segment i).inertia ∧
      (∀ g ∈ groups, 0 ≤ g.inertia.mass) ∧ ∀ g ∈ groups, g.name = (t.segment g.base).name := by
  obtain ⟨hheld, hname⟩ := held_add_dropped hw ht h hg
  rw [droppedBy_additions hmass, add_zero] at hheld
  exact ⟨hheld, mass_groups hmass hg, hname⟩

end

end

end Tree

end Multirotor
