import Multirotor.Proofs.CentreOfGravity

/-!
# Masses of any sign

Adding two inertias without mass in sum drops the first moment of both. So the
mass of a robot is always the sum over its segments, and its centre of gravity
the mean of theirs exactly if what the additions dropped comes to nothing
(`position_mul_mass_iff`). Which additions are made, and what they drop, goes
by the order in which the segments are declared.
-/

namespace Multirotor

namespace Moments

theorem mass_finset_sum {n : Nat} (f : Fin n → Moments) : (∑ i, f i).mass = ∑ i, (f i).mass :=
  map_sum (AddMonoidHom.mk' Moments.mass add_mass) f _

theorem first_finset_sum {n : Nat} (f : Fin n → Moments) : (∑ i, f i).first = ∑ i, (f i).first :=
  map_sum (AddMonoidHom.mk' Moments.first add_first) f _

end Moments

namespace Tree

/-- The additions that make the segments one body: to groups, and of the groups at the root. -/
noncomputable def joinings (t : Tree ℝ) (frames : Placement ℝ t.size)
    (groups : List (InertiaGroup ℝ t.size)) : List Addition :=
  t.additions frames t.order ++ InertiaGroup.joining groups (groups.map (·.inertia)) frames

noncomputable def mass (t : Tree ℝ) : ℝ := ∑ i, (t.segment i).inertia.mass

/-- First moment of the segments about the root's origin. -/
noncomputable def firstMoment (t : Tree ℝ) (frames : Placement ℝ t.size) : Vec3 ℝ :=
  ∑ i, ((frames.get i).point (t.segment i).inertia.cog * (t.segment i).inertia.mass : Vec3 ℝ)

end Tree

namespace InertiaGroup

variable {records : List (SegmentRecord ℝ)} {t : Tree ℝ} {q : Coordinates ℝ}
  {frames : Placement ℝ t.size} {groups : List (InertiaGroup ℝ t.size)}

section
variable (hw : t.WellFormed) (ht : t.Rigid) (hq : t.place q = .ok frames)
  (hg : t.groups = .ok groups)
include hw ht hq hg

theorem bare_add_dropped :
    (total groups (groups.map (·.inertia)) frames).moments +
      Addition.droppedBy (t.joinings frames groups) =
        ∑ i, Tree.seenAt frames i (t.segment i).inertia := by
  obtain ⟨hheld, -⟩ := Tree.held_add_dropped hw ht hq hg
  rw [Tree.joinings, Addition.droppedBy_append, add_left_comm, total_add_dropped (ht.place hq),
    heldLoaded_map, add_comm]
  exact hheld

theorem mass_bare : (total groups (groups.map (·.inertia)) frames).mass = t.mass := by
  have hmass := congrArg Moments.mass (bare_add_dropped hw ht hq hg)
  rw [Moments.add_mass, Addition.mass_droppedBy, add_zero, Moments.mass_finset_sum] at hmass
  exact hmass

theorem first_bare :
    ((total groups (groups.map (·.inertia)) frames).cog * t.mass : Vec3 ℝ) +
      (Addition.droppedBy (t.joinings frames groups)).first = t.firstMoment frames := by
  have hfirst := congrArg Moments.first (bare_add_dropped hw ht hq hg)
  rw [Moments.add_first, Moments.first_finset_sum] at hfirst
  simp only [Tree.seenAt_first] at hfirst
  rw [← mass_bare hw ht hq hg]
  exact hfirst

end

theorem aggregate_bare_eq_ok {baselink : Fin t.size} {desired : Quat ℝ} {cog : CentreOfGravity ℝ}
    {loads : List (Inertia ℝ)} :
    aggregate groups .empty frames baselink desired = .ok (cog, loads) ↔
      CentreOfGravity.ofBody (total groups (groups.map (·.inertia)) frames) (frames.get baselink)
        desired = .ok cog ∧ loads = groups.map (·.inertia) := by
  constructor
  · intro h
    obtain ⟨_, hl, h⟩ := bind_eq_ok.mp h
    obtain ⟨_, hc, h⟩ := bind_eq_ok.mp h
    cases hl
    cases h
    exact ⟨hc, rfl⟩
  · rintro ⟨hc, rfl⟩
    exact bind_eq_ok.mpr ⟨_, rfl, bind_eq_ok.mpr ⟨cog, hc, rfl⟩⟩

/-- A robot of positive mass has a centre of gravity, and it is that of the segments exactly if the
additions dropped no first moment in sum. -/
theorem position_mul_mass_iff (hr : Tree.ofRecords records = .ok t) (ht : t.Rigid)
    (hq : t.place q = .ok frames) (hg : t.groups = .ok groups) (baselink : Fin t.size)
    (desired : Quat ℝ) :
    ((∃ result, aggregate groups .empty frames baselink desired = .ok result) ↔ 0 < t.mass) ∧
      ∀ cog loads, aggregate groups .empty frames baselink desired = .ok (cog, loads) →
        cog.mass = t.mass ∧
        (cog.position * cog.mass : Vec3 ℝ) +
          (Addition.droppedBy (t.joinings frames groups)).first = t.firstMoment frames ∧
        ((cog.position * cog.mass : Vec3 ℝ) = t.firstMoment frames ↔
          (Addition.droppedBy (t.joinings frames groups)).first = 0) := by
  have hw := Tree.wellFormed_of_ofRecords hr
  have hmass := mass_bare hw ht hq hg
  have hfirst := first_bare hw ht hq hg
  constructor
  · constructor
    · rintro ⟨⟨cog, loads⟩, h⟩
      rw [← hmass]
      exact CentreOfGravity.mass_pos_of_ofBody (aggregate_bare_eq_ok.mp h).1
    · intro hpos
      rw [← hmass] at hpos
      obtain ⟨cog, hc⟩ := CentreOfGravity.ofBody_isOk hpos (frames.get baselink) desired
      exact ⟨_, aggregate_bare_eq_ok.mpr ⟨hc, rfl⟩⟩
  · intro cog loads h
    obtain ⟨hcm, hcp, -, -⟩ := CentreOfGravity.ofBody_eq_ok (aggregate_bare_eq_ok.mp h).1
    rw [hcm, hcp, hmass]
    refine ⟨rfl, hfirst, ?_⟩
    rw [← hfirst]
    exact left_eq_add

/-! ## An airship that is lighter than air without its ballast -/

noncomputable def bolted (name : String) (mass : ℝ) (position : Vec3 ℝ) : SegmentRecord ℝ :=
  ⟨name, some "hull", .identity, ⟨name ++ "_bolt", .fixed⟩, .pointMass mass position⟩

noncomputable def hull : SegmentRecord ℝ :=
  ⟨"hull", none, .identity, ⟨"ground", .fixed⟩, .pointMass 1 0⟩

noncomputable def balloon (lift : ℝ) : SegmentRecord ℝ := bolted "balloon" (-lift) ⟨1, 0, 0⟩

noncomputable def ballast (mass : ℝ) : SegmentRecord ℝ := bolted "ballast" mass ⟨0, 1, 0⟩

theorem rigid_airship {name name' : String} {m m' : ℝ} {c c' : Vec3 ℝ} {t : Tree ℝ}
    (h : Tree.ofRecords [bolted name m c, bolted name' m' c', hull] = .ok t) : t.Rigid := by
  refine Tree.rigid_of_ofRecords h fun r hr => ?_
  simp only [List.mem_cons, List.not_mem_nil, or_false] at hr
  rcases hr with rfl | rfl | rfl
  · exact ⟨Frame.rigid_identity, fun _ h => by cases h⟩
  · exact ⟨Frame.rigid_identity, fun _ h => by cases h⟩
  · exact ⟨Frame.rigid_identity, fun _ h => by cases h⟩

noncomputable def onHull (frame : Frame ℝ) (a : Inertia ℝ) : Addition :=
  ⟨frame, hull.inertia, a.transformed .identity⟩

/-- A balloon that lifts what the hull weighs loses its moment when the hull takes it. -/
theorem dropped_onHull_balloon {lift : ℝ} (hlift : 1 ≤ lift) :
    (onHull .identity (balloon lift).inertia).dropped.first = ⟨-lift, 0, 0⟩ := by
  have hnot : ¬0 < (onHull .identity (balloon lift).inertia).mass := by
    change ¬(0 : ℝ) < 1 + -lift
    linarith
  rw [Addition.dropped, if_neg hnot, onHull, Moments.seen_identity]
  change ((0 : Vec3 ℝ) * (1 : ℝ) : Vec3 ℝ) +
    (Frame.identity : Frame ℝ).point ⟨1, 0, 0⟩ * (-lift) = _
  rw [Frame.identity_point]
  ext <;> simp

/-- The additions at the hull, and of the hull at the root. -/
noncomputable def hullJoinings (frame : Frame ℝ) (a b : Inertia ℝ) : List Addition :=
  [onHull frame a, ⟨frame, hull.inertia + a.transformed .identity, b.transformed .identity⟩,
    ⟨.identity, 0, (hull.inertia + a.transformed .identity + b.transformed .identity).transformed
      frame⟩]

/-- Once the hull has mass with both on it, only the first can have made it lose any. -/
theorem droppedBy_hullJoinings {frame : Frame ℝ} {a b : Inertia ℝ} (hab : -1 < a.mass + b.mass) :
    Addition.droppedBy (hullJoinings frame a b) = (onHull frame a).dropped := by
  have hboth : 0 < Addition.mass
      ⟨frame, hull.inertia + a.transformed .identity, b.transformed .identity⟩ := by
    change 0 < 1 + a.mass + b.mass
    linarith
  have htotal : 0 < Addition.mass ⟨.identity, 0, (hull.inertia + a.transformed .identity +
      b.transformed .identity).transformed frame⟩ := by
    change 0 < 0 + (1 + a.mass + b.mass)
    linarith
  unfold hullJoinings
  rw [Addition.droppedBy_cons, Addition.droppedBy_cons, Addition.droppedBy_cons,
    Addition.dropped_of_pos hboth, Addition.dropped_of_pos htotal, zero_add, zero_add]
  exact add_zero _

theorem position_mul_mass_iff_airship : ∃ t frames groups cog loads,
    Tree.ofRecords [ballast 2, balloon 2, hull] = .ok t ∧ t.place ⟨[]⟩ = .ok frames ∧
      t.groups = .ok groups ∧
      aggregate groups .empty frames t.root .identity = .ok (cog, loads) ∧
      (cog.position * cog.mass : Vec3 ℝ) = t.firstMoment frames := by
  obtain ⟨t, hr, frames, hq, groups, hg, hjoin, hmass⟩ : ∃ t : Tree ℝ,
      Tree.ofRecords [ballast 2, balloon 2, hull] = .ok t ∧ ∃ frames, t.place ⟨[]⟩ = .ok frames ∧
        ∃ groups, t.groups = .ok groups ∧ t.joinings frames groups =
          hullJoinings (frames.get t.root) (ballast 2).inertia (balloon 2).inertia ∧
        t.mass = 2 + -2 + 1 :=
    ⟨_, rfl, _, rfl, _, rfl, rfl, Fin.sum_univ_three _⟩
  obtain ⟨hok, hcentre⟩ := position_mul_mass_iff hr (rigid_airship hr) hq hg t.root .identity
  obtain ⟨⟨cog, loads⟩, h⟩ := hok.mpr (by rw [hmass]; norm_num)
  obtain ⟨-, -, hiff⟩ := hcentre cog loads h
  refine ⟨t, frames, groups, cog, loads, hr, hq, hg, h, hiff.mpr ?_⟩
  have hab : -1 < (ballast 2).inertia.mass + (balloon 2).inertia.mass := by
    change (-1 : ℝ) < 2 + -2
    norm_num
  have hfirst : 0 < (onHull (frames.get t.root) (ballast 2).inertia).mass := by
    change (0 : ℝ) < 1 + 2
    norm_num
  rw [hjoin, droppedBy_hullJoinings hab, Addition.dropped_of_pos hfirst]
  rfl

/-- With the balloon declared before the ballast, the centre of gravity of the hull and the balloon
is forgotten. -/
theorem not_centre_of_balloon_first : ∃ t frames groups cog loads,
    Tree.ofRecords [balloon 2, ballast 2, hull] = .ok t ∧ t.place ⟨[]⟩ = .ok frames ∧
      t.groups = .ok groups ∧
      aggregate groups .empty frames t.root .identity = .ok (cog, loads) ∧
      (cog.position * cog.mass : Vec3 ℝ) ≠ t.firstMoment frames := by
  obtain ⟨t, hr, frames, hq, groups, hg, hjoin, hmass, hroot⟩ : ∃ t : Tree ℝ,
      Tree.ofRecords [balloon 2, ballast 2, hull] = .ok t ∧ ∃ frames, t.place ⟨[]⟩ = .ok frames ∧
        ∃ groups, t.groups = .ok groups ∧ t.joinings frames groups =
          hullJoinings (frames.get t.root) (balloon 2).inertia (ballast 2).inertia ∧
        t.mass = -2 + 2 + 1 ∧ (t.segment t.root).parent = none :=
    ⟨_, rfl, _, rfl, _, rfl, rfl, Fin.sum_univ_three _, rfl⟩
  have hw := Tree.wellFormed_of_ofRecords hr
  have hbare := mass_bare hw (rigid_airship hr) hq hg
  have hfirst := first_bare hw (rigid_airship hr) hq hg
  obtain ⟨cog, hc⟩ := CentreOfGravity.ofBody_isOk (by rw [hbare, hmass]; norm_num)
    (frames.get t.root) Quat.identity
  obtain ⟨hcm, hcp, -, -⟩ := CentreOfGravity.ofBody_eq_ok hc
  refine ⟨t, frames, groups, cog, _, hr, hq, hg, aggregate_bare_eq_ok.mpr ⟨hc, rfl⟩, ?_⟩
  have hab : -1 < (balloon 2).inertia.mass + (ballast 2).inertia.mass := by
    change (-1 : ℝ) < -2 + 2
    norm_num
  intro hcentre
  rw [hjoin, droppedBy_hullJoinings hab, Tree.get_root hq hroot,
    dropped_onHull_balloon one_le_two, ← hcentre, hcp, hcm, hbare, add_eq_left] at hfirst
  have hx := congrArg Vec3.x hfirst
  norm_num at hx

end InertiaGroup

end Multirotor
