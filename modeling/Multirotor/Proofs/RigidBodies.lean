import Multirotor.Proofs.CentreOfGravity
import Multirotor.Proofs.DeclarationOrder
import Multirotor.Proofs.RootPath

/-!
# Rigid bodies

The groups cut a tree into rigid bodies. Each segment is in one of them, that
of the first segment up from it that is the root or turns, and the inertia of
the group sums its segments, each once. Gathering runs from the leaves up, so
what a segment hands up is what is rigidly below it (`Gathers`).
-/

namespace Multirotor

namespace Tree

variable {α : Type} {t : Tree α} {a b b' c i p : Fin t.size} {l l' : List (Fin t.size)}

/-- Down from `b` to `i` go the segments `l`, and none of them turns. -/
inductive Rigidly (t : Tree α) (b : Fin t.size) : List (Fin t.size) → Fin t.size → Prop where
  | self : Rigidly t b [] b
  | child {l : List (Fin t.size)} {p i : Fin t.size} :
    Rigidly t b l p → (t.segment i).parent = some p →
    (t.segment i).joint.kind.isRevolute = false → Rigidly t b (l ++ [i]) i

namespace Rigidly

theorem way (h : t.Rigidly b l i) : t.Way b l i := by
  induction h with
  | self => exact .here
  | child _ hp _ ih => exact ih.child hp

theorem down (hp : (t.segment c).parent = some a)
    (hc : (t.segment c).joint.kind.isRevolute = false) (h : t.Rigidly c l i) :
    t.Rigidly a (c :: l) i := by
  induction h with
  | self => exact Rigidly.self.child hp hc
  | child _ hp hi ih => exact ih.child hp hi

/-- A rigid way that goes anywhere starts with a child that does not turn. -/
theorem start (h : t.Rigidly a l i) : i = a ∨ ∃ c l', (t.segment c).parent = some a ∧
    (t.segment c).joint.kind.isRevolute = false ∧ t.Rigidly c l' i := by
  induction h with
  | self => exact .inl rfl
  | @child l p i _ hp hi ih =>
    obtain rfl | ⟨c, l', hc, hk, hl'⟩ := ih
    · exact .inr ⟨i, [], hp, hi, .self⟩
    · exact .inr ⟨c, l' ++ [i], hc, hk, hl'.child hp hi⟩

/-- Only the start of a rigid way can be a base. -/
theorem base_unique (h : t.Rigidly b l i) (h' : t.Rigidly b' l' i) (hb : t.isBase b = true)
    (hb' : t.isBase b' = true) : b = b' := by
  induction h generalizing l' with
  | self =>
    cases h' with
    | self => rfl
    | child _ hp hi => exact absurd hb (not_isBase hp hi)
  | child _ hp hi ih =>
    cases h' with
    | self => exact absurd hb' (not_isBase hp hi)
    | child h' hp' _ =>
      rw [hp, Option.some.injEq] at hp'
      exact ih (hp' ▸ h')

end Rigidly

theorem Rooted.exists_base (hr : t.Rooted) (i : Fin t.size) :
    ∃ b l, t.isBase b = true ∧ t.Rigidly b l i := by
  obtain ⟨k, hk⟩ := hr.depth i
  induction hk with
  | root => exact ⟨t.root, [], (isBase_iff hr).mpr (.inl rfl), .self⟩
  | @child k p i hp _ ih =>
    cases hi : (t.segment i).joint.kind.isRevolute with
    | true => exact ⟨i, [], (isBase_of_parent hp).trans hi, .self⟩
    | false =>
      obtain ⟨b, l, hb, hl⟩ := ih
      exact ⟨b, l ++ [i], hb, hl.child hp hi⟩

section
variable (hw : t.WellFormed) (hr : t.Rooted)
include hw hr

/-- The root is the first base, whether it turns or not. -/
theorem bases_eq (ha : t.order = t.root :: l) : t.order.filter t.isBase =
    t.root :: t.joints.filter (· ≠ t.root) := by
  have hroot : t.isBase t.root = true := (isBase_iff hr).mpr (.inl rfl)
  have hbase : ∀ i ∈ l, t.isBase i =
      (decide (i ≠ t.root) && (t.segment i).joint.kind.isRevolute) := fun i hi => by
    have hne : i ≠ t.root := fun he => (List.nodup_cons.mp (ha ▸ hw.nodup)).1 (he ▸ hi)
    rw [Bool.eq_iff_iff, isBase_iff hr, or_iff_right hne, decide_eq_true hne, Bool.true_and]
  rw [hr.joints, List.filter_filter, ha, List.filter_cons_of_pos hroot,
    List.filter_cons_of_neg (by simp), List.filter_congr hbase]

theorem jointPath_of_rigidly (h : t.Rigidly b l i) :
    (t.segment i).jointPath = (t.segment b).jointPath := by
  induction h with
  | self => rfl
  | @child l p i _ hp hi ih =>
    rw [jointPath_child hr hp, idxOf?_joints_of_still hw hr hi, ih]
    exact List.append_nil _

end

/-! ## What a segment hands up -/

section
variable [Scalar α]

/-- `sum` is put together at segment `a` from the segments `members`: its own inertia, and of each
child that is fixed to it what is put together there. A child that turns hands up no inertia. -/
inductive Sums (t : Tree α) : Fin t.size → List (Fin t.size) → Inertia α → Prop where
  | own (a : Fin t.size) : Sums t a [a] (t.segment a).inertia
  | fixed {a c : Fin t.size} {members members' : List (Fin t.size)} {sum part : Inertia α} :
    Sums t a members sum → (t.segment c).parent = some a →
    (t.segment c).joint.kind.isRevolute = false → Sums t c members' part →
    Sums t a (members ++ members') (sum + part.transformed (t.segment c).offset)
  | turning {a c : Fin t.size} {members : List (Fin t.size)} {sum : Inertia α} :
    Sums t a members sum → (t.segment c).parent = some a →
    (t.segment c).joint.kind.isRevolute = true →
    Sums t a members (sum + (0 : Inertia α).transformed (t.segment c).offset)

/-- `sum` is put together from all segments that hang rigidly from `a`, each taken once. -/
def SumsBody (t : Tree α) (a : Fin t.size) (sum : Inertia α) : Prop :=
  ∃ members, t.Sums a members sum ∧ members.Nodup ∧ ∀ i, i ∈ members ↔ ∃ l, t.Rigidly a l i

section
variable {carried : Vector (Inertia α) t.size} (hr : t.Rooted)
  (hfixed : ∀ c, (t.segment c).parent = some a → (t.segment c).joint.kind.isRevolute = false →
    t.SumsBody c (carried.get c))
  (hturning : ∀ c, (t.segment c).parent = some a → (t.segment c).joint.kind.isRevolute = true →
    carried.get c = 0)
include hr hfixed hturning

/-- The bodies that hang from different children have no segment in common. -/
theorem sums_foldl {cs : List (Fin t.size)} (hnd : cs.Nodup)
    (hcs : ∀ c ∈ cs, (t.segment c).parent = some a) :
    ∃ members, t.Sums a members (cs.foldl
        (fun sum c => sum + (carried.get c).transformed (t.segment c).offset)
        (t.segment a).inertia) ∧
      members.Nodup ∧ ∀ i, i ∈ members ↔ i = a ∨ ∃ c ∈ cs,
        (t.segment c).joint.kind.isRevolute = false ∧ ∃ l, t.Rigidly c l i := by
  induction cs using List.reverseRecOn with
  | nil => exact ⟨[a], .own a, List.nodup_singleton a, by simp⟩
  | append_singleton cs c ih =>
    obtain ⟨hnd, -, hdisj⟩ := List.nodup_append.mp hnd
    obtain ⟨hcs, hc⟩ := List.forall_mem_append.mp hcs
    have hc := List.forall_mem_singleton.mp hc
    obtain ⟨members, hsum, hmnd, hmem⟩ := ih hnd hcs
    rw [List.foldl_concat]
    cases hk : (t.segment c).joint.kind.isRevolute with
    | true =>
      refine ⟨members, hturning c hc hk ▸ hsum.turning hc hk, hmnd, fun i => ?_⟩
      simp [hmem, or_and_right, exists_or, hk]
    | false =>
      obtain ⟨members', hsum', hmnd', hmem'⟩ := hfixed c hc hk
      refine ⟨members ++ members', hsum.fixed hc hk hsum', ?_, fun i => ?_⟩
      · refine List.nodup_append'.mpr ⟨hmnd, hmnd', fun i hi hi' => ?_⟩
        obtain ⟨l, hl⟩ := (hmem' i).mp hi'
        rcases (hmem i).mp hi with rfl | ⟨d, hd, -, l', hl'⟩
        · exact hr.not_way_parent hc hl.way
        · have heq := hr.way_unique (hl'.way.down (hcs d hd)) (hl.way.down hc)
          exact hdisj d hd c (List.mem_singleton_self c) (List.cons.inj heq).1
      · simp [hmem, hmem', or_and_right, exists_or, hk, or_assoc]

theorem sumsBody_gathered (hw : t.WellFormed) : t.SumsBody a (t.gathered carried a) := by
  obtain ⟨members, hsum, hmnd, hmem⟩ :=
    sums_foldl hr hfixed hturning hw.nodup_children fun c => hw.mem_children.mp
  refine ⟨members, hsum, hmnd, fun i => (hmem i).trans ⟨?_, ?_⟩⟩
  · rintro (rfl | ⟨c, hc, hk, l, hl⟩)
    · exact ⟨[], .self⟩
    · exact ⟨c :: l, hl.down (hw.mem_children.mp hc) hk⟩
  · rintro ⟨l, hl⟩
    exact hl.start.imp_right fun ⟨c, l', hp, hk, hl'⟩ => ⟨c, hw.mem_children.mpr hp, hk, l', hl'⟩

end

/-- Of the segments `done`, the groups hold those that hang rigidly from a base that is done. -/
structure Gathers (t : Tree α) (done : List (Fin t.size))
    (state : Vector (Inertia α) t.size × List (InertiaGroup α t.size)) : Prop where
  base : ∀ i, t.isBase i = true → state.1.get i = 0
  handed : ∀ i ∈ done, ¬t.isBase i = true → t.SumsBody i (state.1.get i)
  group : ∀ g ∈ state.2, t.SumsBody g.base g.inertia

section
variable (hw : t.WellFormed) (hr : t.Rooted) {done : List (Fin t.size)}
include hw hr

theorem Gathers.gather {state : Vector (Inertia α) t.size × List (InertiaGroup α t.size)}
    (h : t.Gathers done state) (hdone : ∀ c, (t.segment c).parent = some a → c ∈ done) :
    t.Gathers (a :: done) (t.gather a state) := by
  obtain ⟨carried, groups⟩ := state
  obtain ⟨hbase, hhanded, hgroup⟩ := h
  have hsum : t.SumsBody a (t.gathered carried a) :=
    sumsBody_gathered hr (fun c hp hc => hhanded c (hdone c hp) (not_isBase hp hc))
      (fun c hp hc => hbase c ((isBase_of_parent hp).trans hc)) hw
  by_cases ha : t.isBase a = true
  · rw [gather_of_isBase ha]
    refine ⟨hbase, fun i hi hb => ?_, List.forall_mem_cons.mpr ⟨hsum, hgroup⟩⟩
    rcases List.mem_cons.mp hi with rfl | hi
    · exact absurd ha hb
    · exact hhanded i hi hb
  · rw [gather_of_not_isBase ha]
    refine ⟨fun i hi => ?_, fun i hi hb => ?_, hgroup⟩
    · have hne : i ≠ a := fun he => ha (he ▸ hi)
      rw [Ancestry.get_assign_of_ne _ _ _ hne]
      exact hbase i hi
    · by_cases he : i = a
      · rw [he, Ancestry.get_assign_self]
        exact hsum
      · rw [Ancestry.get_assign_of_ne _ _ _ he]
        exact hhanded i ((List.mem_cons.mp hi).resolve_left he) hb

/-- Children come after their parents, so they are gathered when their parent is. -/
theorem gathers_foldr {l : List (Fin t.size)}
    (hfirst : l.Pairwise fun a b => (t.segment a).parent ≠ some b)
    (hclosed : ∀ p ∈ l, ∀ c, (t.segment c).parent = some p → c ∈ l) :
    t.Gathers l (l.foldr t.gather (Vector.replicate t.size 0, [])) := by
  induction l with
  | nil => exact ⟨fun i _ => get_replicate i, by simp, by simp⟩
  | cons a l ih =>
    obtain ⟨ha, hfirst⟩ := List.pairwise_cons.mp hfirst
    obtain ⟨hself, hclosed⟩ := List.forall_mem_cons.mp hclosed
    rw [List.foldr_cons]
    refine (ih hfirst fun p hp c hc => ?_).gather hw hr fun c hc => ?_
    · exact (List.mem_cons.mp (hclosed p hp c hc)).resolve_left fun he => ha p hp (he ▸ hc)
    · exact (List.mem_cons.mp (hself c hc)).resolve_left fun he =>
        hw.parent_ne_self a (he ▸ hc)

theorem sumsBody_of_groups {groups : List (InertiaGroup α t.size)} (h : t.groups = .ok groups)
    {g : InertiaGroup α t.size} (hg : g ∈ groups) : t.SumsBody g.base g.inertia := by
  rw [← (groups_eq_ok h).1] at hg
  exact (gathers_foldr hw hr hw.parent_first fun _ _ c _ => hw.complete c).group g hg

/-! ## The groups -/

omit hr in
theorem index?_groups_iff {groups : List (InertiaGroup α t.size)} (h : t.groups = .ok groups)
    {name : String} {k : Nat} : InertiaGroup.index? groups name = some k ↔
      ∃ g, groups[k]? = some g ∧ (t.segment g.base).name = name := by
  refine ⟨fun hk => ?_, fun ⟨g, hg, hname⟩ => ?_⟩
  · obtain ⟨g, hg, hname⟩ := InertiaGroup.index?_eq_some hk
    exact ⟨g, hg, (base_of_mem h (List.mem_of_getElem? hg)).2.symm.trans hname⟩
  · have hgname := (base_of_mem h (List.mem_of_getElem? hg)).2.trans hname
    obtain ⟨hlt, rfl⟩ := List.getElem?_eq_some_iff.mp hg
    refine List.findIdx?_eq_some_iff_getElem.mpr ⟨hlt, beq_iff_eq.mpr hgname, fun j hj he => ?_⟩
    -- No two groups have one name, since their bases differ.
    have hjlt := hj.trans hlt
    have hbase : groups[j].base = groups[k].base := hw.name_injective
      ((base_of_mem h (List.getElem_mem hjlt)).2.symm.trans ((beq_iff_eq.mp he).trans hname.symm))
    have hnd := List.pairwise_iff_getElem.mp (nodup_bases hw h) j k
      (by simpa using hjlt) (by simpa using hlt) hj
    simp [hbase] at hnd

theorem exists_unique_group {groups : List (InertiaGroup α t.size)} (h : t.groups = .ok groups)
    (i : Fin t.size) : ∃! g, g ∈ groups ∧ ∃ l, t.Rigidly g.base l i := by
  obtain ⟨b, l, hb, hl⟩ := hr.exists_base i
  have hmem : b ∈ groups.map (·.base) := by
    rw [← (groups_eq_ok h).1, map_base_foldr]
    exact List.mem_filter.mpr ⟨hw.complete b, hb⟩
  obtain ⟨g, hg, rfl⟩ := List.mem_map.mp hmem
  refine ⟨g, ⟨hg, l, hl⟩, fun g' ⟨hg', l', hl'⟩ => ?_⟩
  exact List.inj_on_of_nodup_map (nodup_bases hw h) hg' hg
    (hl'.base_unique hl (base_of_mem h hg').1 hb)

end

/-- The frame at the end of a way that starts from frame `f`, if nothing on it turns. -/
def fixedAlong (t : Tree α) (f : Frame α) (l : List (Fin t.size)) : Frame α :=
  l.foldl (fun f j => f * (t.segment j).offset * .identity) f

theorem Rigidly.get (hw : t.WellFormed) {q : Coordinates α} {frames : Placement α t.size}
    (h : t.place q = .ok frames) (hl : t.Rigidly b l i) :
    frames.get i = t.fixedAlong (frames.get b) l := by
  induction hl with
  | self => rfl
  | child _ hp hi ih =>
    rw [hw.get_of_parent h hp, jointMotion_of_still hi, ih, fixedAlong, fixedAlong,
      List.foldl_concat]

/-- The groups are rigid bodies, and together they are the tree. -/
structure Partitions (t : Tree α) (groups : List (InertiaGroup α t.size)) : Prop where
  bases : groups.map (·.base) = t.root :: t.joints.filter (· ≠ t.root)
  once : (groups.map (·.base)).Nodup
  member : ∀ i, ∃! g, g ∈ groups ∧ ∃ l, t.Rigidly g.base l i
  inertia : ∀ g ∈ groups, t.SumsBody g.base g.inertia
  jointPath : ∀ b l i, t.Rigidly b l i → (t.segment i).jointPath = (t.segment b).jointPath
  /-- The coordinates move the members of a group with its base only. -/
  pose : ∀ q frames, t.place q = .ok frames → ∀ b l i, t.Rigidly b l i →
    frames.get i = t.fixedAlong (frames.get b) l
  index : ∀ name k, InertiaGroup.index? groups name = some k ↔
    ∃ g, groups[k]? = some g ∧ (t.segment g.base).name = name
  base_link : ∀ name, (InertiaGroup.index? groups name).isSome = true ↔
    ∃ i, (i = t.root ∨ (t.segment i).joint.kind.isRevolute = true) ∧ (t.segment i).name = name

theorem partitions_of_ofRecords {records : List (SegmentRecord α)} (h : ofRecords records = .ok t) :
    ∃ groups, t.groups = .ok groups ∧ t.Partitions groups := by
  have hw := wellFormed_of_ofRecords h
  have hr := rooted_of_ofRecords h
  obtain ⟨groups, hg⟩ := groups_isOk hw hr
  refine ⟨groups, hg, ?_, nodup_bases hw hg, exists_unique_group hw hr hg,
    fun g => sumsBody_of_groups hw hr hg, fun b l i => jointPath_of_rigidly hw hr,
    fun q frames hq b l i => Rigidly.get hw hq, fun name k => index?_groups_iff hw hg, fun name => ?_⟩
  · rw [← (groups_eq_ok hg).1, map_base_foldr]
    exact bases_eq hw hr (arranges_of_ofRecords h).queue
  · simp only [← isBase_iff hr]
    rw [← mem_names_groups hw hg]
    simp [InertiaGroup.index?]

end

/-! ## Exact poses -/

/-- The product of the offsets along a way. -/
def offsets [Scalar α] (t : Tree α) (l : List (Fin t.size)) : Frame α :=
  l.foldl (fun f j => f * (t.segment j).offset) .identity

/-- In exact arithmetic, the pose of a segment in its group is the same for all coordinates. -/
theorem Rigidly.inverse_mul {t : Tree ℝ} {b i : Fin t.size} {l : List (Fin t.size)}
    (hl : t.Rigidly b l i) (hw : t.WellFormed) (ht : t.Rigid) {q : Coordinates ℝ}
    {frames : Placement ℝ t.size} (h : t.place q = .ok frames) :
    (frames.get b).inverse * frames.get i = t.offsets l := by
  induction hl with
  | self => exact (ht.place h b).inverse_mul
  | @child l p i _ hp hi ih =>
    rw [hw.get_of_fixed h hp hi, ← (ht.place h b).inverse.mul_assoc (ht.place h p), ih, offsets,
      offsets, List.foldl_concat]

/-- The groups of an accepted tree cut it into rigid bodies. -/
theorem groups_partition :
    (∀ (α : Type) [Scalar α] (records : List (SegmentRecord α)) (t : Tree α),
      ofRecords records = .ok t → ∃ groups, t.groups = .ok groups ∧ t.Partitions groups) ∧
    ∀ (records : List (SegmentRecord ℝ)) (t : Tree ℝ), ofRecords records = .ok t → t.Rigid →
      ∀ q frames, t.place q = .ok frames → ∀ b l i, t.Rigidly b l i →
        (frames.get b).inverse * frames.get i = t.offsets l :=
  ⟨fun _ _ _ _ h => partitions_of_ofRecords h, fun _ _ h ht _ _ hq _ _ _ hl =>
    hl.inverse_mul (wellFormed_of_ofRecords h) ht hq⟩

section
open InertiaGroup

/-- The hook of the crane hangs rigidly from its arm, which turns on the base. -/
theorem groups_partition_crane : ∃ groups frames, craneTree.groups = .ok groups ∧
    craneTree.Partitions groups ∧ craneTree.place ⟨[1]⟩ = .ok frames ∧
    (frames.get ⟨1, Nat.one_lt_succ_succ 1⟩).inverse * frames.get ⟨2, Nat.lt_succ_self 2⟩ =
      craneTree.offsets [⟨2, Nat.lt_succ_self 2⟩] := by
  obtain ⟨groups, hg, hpart⟩ := groups_partition.1 ℝ crane craneTree ofRecords_crane
  obtain ⟨frames, hq⟩ := place_crane 1
  have hook : craneTree.Rigidly ⟨1, Nat.one_lt_succ_succ 1⟩ [⟨2, Nat.lt_succ_self 2⟩]
      ⟨2, Nat.lt_succ_self 2⟩ := Rigidly.self.child rfl rfl
  exact ⟨groups, frames, hg, hpart, hq,
    groups_partition.2 crane craneTree ofRecords_crane rigid_crane _ _ hq _ _ _ hook⟩

end

end Tree

end Multirotor
