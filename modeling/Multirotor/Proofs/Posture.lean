import Multirotor.Proofs.Bend
import Multirotor.Proofs.CentreOfGravity
import Multirotor.Proofs.Exact.Rate
import Multirotor.Robot

/-!
# Postures

Where a hovering robot is and how heavy its groups are, before any thrust is
known. A robot that is put together from an accepted tree has sound postures
only (`Assembled.sound`): its centre of gravity is the mean of those of its
groups, and the axes there are turned from the base link as desired.
-/

namespace Multirotor

/-- The part of a hovering state that the thrusts follow from. -/
structure Posture (n : Nat) where
  frames : Placement ℝ n
  cog : CentreOfGravity ℝ
  loaded : List (Inertia ℝ)

def HoverState.posture {n : Nat} (s : HoverState ℝ n) : Posture n := ⟨s.frames, s.cog, s.loaded⟩

namespace Posture

variable {n : Nat} (p : Posture n)

/-- A point that is fixed in a segment, in the level frame. -/
noncomputable def point (i : Fin n) (x : Vec3 ℝ) : Vec3 ℝ :=
  p.cog.level.rotate ((p.frames.get i).point x)

noncomputable def direction (i : Fin n) (v : Vec3 ℝ) : Vec3 ℝ :=
  p.cog.level.rotate ((p.frames.get i).rotation.rotate v)

/-- The axes of a segment, in the level frame. -/
noncomputable def attitude (i : Fin n) : Mat3 ℝ :=
  (p.cog.level * (p.frames.get i).rotation).toMatrix

theorem point_sub_point (i : Fin n) (x y : Vec3 ℝ) :
    p.point i x - p.point i y = p.direction i (x - y) := by
  simp only [point, direction, Frame.point_eq, Quat.rotate_add, Quat.rotate_sub]
  abel

theorem point_zero (i : Fin n) : p.point i 0 = p.cog.level.rotate (p.frames.get i).origin := by
  rw [point, Frame.point_eq, Quat.rotate_zero, add_zero]

/-- The frames are rigid, and the centre of gravity is that of the groups. -/
structure Sound (groups : List (InertiaGroup ℝ n)) : Prop where
  level : p.cog.level.Unit
  rigid : ∀ i, (p.frames.get i).Rigid
  mass : p.cog.mass = ((groups.zip p.loaded).map fun x => x.2.mass).sum
  mass_pos : 0 < p.cog.mass
  centre : (p.cog.levelPosition * p.cog.mass : Vec3 ℝ) =
    ((groups.zip p.loaded).map fun x => (p.point x.1.base x.2.cog * x.2.mass : Vec3 ℝ)).sum

variable {p} {groups : List (InertiaGroup ℝ n)}

theorem Sound.col_attitude (h : p.Sound groups) (i : Fin n) (k : Fin 3) :
    (p.attitude i).col k = p.direction i (Vec3.unit k) := by
  rw [attitude, ← Mat3.apply_unit, ← (h.level.mul (h.rigid i)).rotate_eq,
    h.level.mul_rotate (h.rigid i), direction]

end Posture

theorem Quat.rotate_list_sum (q : Quat ℝ) (l : List (Vec3 ℝ)) :
    q.rotate l.sum = (l.map q.rotate).sum :=
  map_list_sum (AddMonoidHom.mk' q.rotate (q.rotate_add)) l

namespace InertiaGroup

variable {t : Tree ℝ} {groups : List (InertiaGroup ℝ t.size)} {loads : List (Inertia ℝ)}
  {frames : Placement ℝ t.size}

theorem heldLoaded_mass : (heldLoaded frames groups loads).mass =
    ((groups.zip loads).map fun x => x.2.mass).sum := by
  rw [heldLoaded, Moments.mass_sum, List.map_map]
  rfl

theorem heldLoaded_first : (heldLoaded frames groups loads).first = ((groups.zip loads).map fun x =>
    ((frames.get x.1.base).point x.2.cog * x.2.mass : Vec3 ℝ)).sum := by
  rw [heldLoaded, Moments.first_sum, List.map_map]
  exact congrArg List.sum (List.map_congr_left fun x _ => Tree.seenAt_first frames _ _)

end InertiaGroup

theorem Tree.require_eq_ok {α : Type} {t : Tree α} {name : String} {i : Fin t.size} :
    t.require name = .ok i ↔ t.find? name = some i := by
  unfold require
  cases t.find? name <;> simp

namespace Robot

section
variable {α : Type} [Scalar α]

theorem ofConfig_eq_ok {t : Tree α} {config : Config α} {r : Robot α}
    (h : ofConfig t config = .ok r) : ∃ groups rotors baselink,
      config.validate.mapError ModelError.config = .ok () ∧ t.require config.baselink = .ok baselink ∧
      t.groups = .ok groups ∧ RotorLayout.ofConfig t config = .ok rotors ∧
        r = ⟨t, groups, rotors, baselink, config⟩ := by
  obtain ⟨_, hvalid, h⟩ := bind_eq_ok.mp h
  obtain ⟨baselink, hbase, h⟩ := bind_eq_ok.mp h
  obtain ⟨groups, hgroups, h⟩ := bind_eq_ok.mp h
  obtain ⟨rotors, hrotors, h⟩ := bind_eq_ok.mp h
  cases h
  exact ⟨groups, rotors, baselink, hvalid, hbase, hgroups, hrotors, rfl⟩

theorem eq_of_ofConfig {t : Tree α} {config : Config α} {r : Robot α}
    (h : ofConfig t config = .ok r) : r.tree = t ∧ r.config = config := by
  obtain ⟨_, _, _, -, -, -, -, rfl⟩ := ofConfig_eq_ok h
  exact ⟨rfl, rfl⟩

theorem groups_of_ofConfig {r : Robot α} (h : ofConfig r.tree r.config = .ok r) :
    r.tree.groups = .ok r.groups := by
  obtain ⟨tree, groups, rotors, baselink, config⟩ := r
  obtain ⟨_, _, _, -, -, hgroups, -, he⟩ := ofConfig_eq_ok h
  cases he
  exact hgroups

end

/-- The robot is made of an accepted tree without negative masses. -/
structure Assembled (r : Robot ℝ) : Prop where
  tree : ∃ records, Tree.ofRecords records = .ok r.tree
  config : ∃ config, Robot.ofConfig r.tree config = .ok r
  rigid : r.tree.Rigid
  mass : ∀ i, 0 ≤ (r.tree.segment i).inertia.mass

/-- The modules are mounted on the robot, and a rotation is desired. -/
structure Admits (r : Robot ℝ) (setup : Setup ℝ) : Prop where
  payload : setup.payload.Filled r.groups
  desired : setup.desired.Unit

noncomputable def posture (r : Robot ℝ) (setup : Setup ℝ) (q : Coordinates ℝ) :
    Except (ModelError ℝ) (Posture r.tree.size) := do
  let frames ← r.tree.place q
  let (cog, loaded) ←
    InertiaGroup.aggregate r.groups setup.payload frames r.baselink setup.desired
  pure ⟨frames, cog, loaded⟩

section
variable {r : Robot ℝ} {setup setup' : Setup ℝ} {q q' : Coordinates ℝ} {p : Posture r.tree.size}

theorem Assembled.wellFormed (hr : r.Assembled) : r.tree.WellFormed := by
  obtain ⟨records, h⟩ := hr.tree
  exact Tree.wellFormed_of_ofRecords h

theorem Assembled.rooted (hr : r.Assembled) : r.tree.Rooted := by
  obtain ⟨records, h⟩ := hr.tree
  exact Tree.rooted_of_ofRecords h

theorem Assembled.groups (hr : r.Assembled) : r.tree.groups = .ok r.groups := by
  obtain ⟨config, h⟩ := hr.config
  obtain ⟨-, rfl⟩ := eq_of_ofConfig h
  exact groups_of_ofConfig h

theorem posture_eq_ok : r.posture setup q = .ok p ↔ r.tree.place q = .ok p.frames ∧
    InertiaGroup.loaded r.groups setup.payload = .ok p.loaded ∧
    CentreOfGravity.ofBody (InertiaGroup.total r.groups p.loaded p.frames)
      (p.frames.get r.baselink) setup.desired = .ok p.cog := by
  constructor
  · intro h
    obtain ⟨frames, hq, h⟩ := bind_eq_ok.mp h
    obtain ⟨⟨cog, loaded⟩, ha, h⟩ := bind_eq_ok.mp h
    obtain ⟨loaded', hl, ha⟩ := bind_eq_ok.mp ha
    obtain ⟨cog', hc, ha⟩ := bind_eq_ok.mp ha
    cases ha
    cases h
    exact ⟨hq, hl, hc⟩
  · rintro ⟨hq, hl, hc⟩
    refine bind_eq_ok.mpr ⟨_, hq, bind_eq_ok.mpr ⟨(p.cog, p.loaded), ?_, rfl⟩⟩
    exact bind_eq_ok.mpr ⟨_, hl, bind_eq_ok.mpr ⟨_, hc, rfl⟩⟩

theorem Assembled.sound (hr : r.Assembled) (hs : r.Admits setup) (h : r.posture setup q = .ok p) :
    p.Sound r.groups := by
  obtain ⟨hq, hl, hc⟩ := posture_eq_ok.mp h
  have hrigid := hr.rigid.place hq
  obtain ⟨hfit, -⟩ := InertiaGroup.fits_loaded hr.wellFormed hr.rigid hr.mass hq hr.groups
    hs.payload hl
  have htotal : (InertiaGroup.total r.groups p.loaded p.frames).moments =
      InertiaGroup.heldLoaded p.frames r.groups p.loaded := InertiaGroup.moments_total hrigid hfit.mass
  obtain ⟨hm, hpos, hrot, -⟩ := CentreOfGravity.ofBody_eq_ok hc
  have hunit : ((p.frames.get r.baselink).rotation * setup.desired.inverse).Unit :=
    Quat.Unit.mul (hrigid r.baselink) hs.desired.inverse
  refine ⟨?_, hrigid, ?_, ?_, ?_⟩
  · rw [CentreOfGravity.level, hrot]
    exact hunit.inverse
  · rw [hm, ← InertiaGroup.heldLoaded_mass, ← htotal]
    rfl
  · rw [hm]
    exact CentreOfGravity.mass_pos_of_ofBody hc
  · have hfirst := congrArg Moments.first htotal
    rw [InertiaGroup.heldLoaded_first] at hfirst
    rw [CentreOfGravity.levelPosition, ← Quat.rotate_mul, hpos, hm]
    refine (congrArg _ hfirst).trans ?_
    rw [Quat.rotate_list_sum, List.map_map]
    refine congrArg List.sum (List.map_congr_left fun x _ => ?_)
    exact Quat.rotate_mul _ _ _

/-- The axes at the centre of gravity are turned from the base link as desired, and back again. -/
theorem level_of_posture {level : Quat ℝ} (hbase : (p.frames.get r.baselink).Rigid)
    (hd : setup.desired = level * (p.frames.get r.baselink).rotation)
    (h : r.posture setup q = .ok p) : p.cog.level = level := by
  obtain ⟨-, -, hc⟩ := posture_eq_ok.mp h
  obtain ⟨-, -, hrot, -⟩ := CentreOfGravity.ofBody_eq_ok hc
  rw [CentreOfGravity.level, hrot, hd, Quat.inverse_mul, Quat.inverse_inverse, Quat.mul_assoc,
    Quat.Unit.mul_inverse hbase, Quat.mul_identity]

theorem desired_of_posture (hbase : (p.frames.get r.baselink).Rigid)
    (h : r.posture setup q = .ok p) :
    p.cog.level * (p.frames.get r.baselink).rotation = setup.desired := by
  obtain ⟨-, -, hc⟩ := posture_eq_ok.mp h
  obtain ⟨-, -, hrot, -⟩ := CentreOfGravity.ofBody_eq_ok hc
  have hback := Quat.Unit.mul_inverse (Quat.Unit.inverse hbase)
  rw [Quat.inverse_inverse] at hback
  rw [CentreOfGravity.level, hrot, Quat.inverse_mul, Quat.inverse_inverse, Quat.mul_assoc, hback,
    Quat.mul_identity]

/-- With the same modules there is a posture at any coordinates of the tree. -/
theorem Assembled.posture_isOk (hr : r.Assembled) (hs : r.Admits setup)
    (h : r.posture setup q = .ok p) (hpay : setup'.payload = setup.payload)
    {frames : Placement ℝ r.tree.size} (hq' : r.tree.place q' = .ok frames) :
    ∃ p', r.posture setup' q' = .ok p' ∧ p'.frames = frames ∧ p'.loaded = p.loaded ∧
      p'.cog.mass = p.cog.mass := by
  obtain ⟨hq, hl, hc⟩ := posture_eq_ok.mp h
  obtain ⟨hfit, -⟩ := InertiaGroup.fits_loaded hr.wellFormed hr.rigid hr.mass hq hr.groups
    hs.payload hl
  have hmass : ∀ {frames : Placement ℝ r.tree.size}, (∀ i, (frames.get i).Rigid) →
      (InertiaGroup.total r.groups p.loaded frames).mass =
        ((r.groups.zip p.loaded).map fun x => x.2.mass).sum := fun hrigid => by
    rw [← InertiaGroup.heldLoaded_mass, ← InertiaGroup.moments_total hrigid hfit.mass]
    rfl
  have heq : (InertiaGroup.total r.groups p.loaded frames).mass =
      (InertiaGroup.total r.groups p.loaded p.frames).mass :=
    (hmass (hr.rigid.place hq')).trans (hmass (hr.rigid.place hq)).symm
  obtain ⟨cog, hcog⟩ := CentreOfGravity.ofBody_isOk
    (heq ▸ CentreOfGravity.mass_pos_of_ofBody hc) (frames.get r.baselink) setup'.desired
  refine ⟨⟨frames, cog, p.loaded⟩, posture_eq_ok.mpr ⟨hq', hpay ▸ hl, hcog⟩, rfl, rfl, ?_⟩
  rw [(CentreOfGravity.ofBody_eq_ok hcog).1, heq, (CentreOfGravity.ofBody_eq_ok hc).1]

end

/-! ## A robot with six rotors -/

/-- Takes the z axis to the x axis. -/
noncomputable def forwards : Quat ℝ := ⟨1 / 2, 1 / 2, 1 / 2, 1 / 2⟩

/-- Takes the z axis to the y axis. -/
noncomputable def sideways : Quat ℝ := ⟨1 / 2, -1 / 2, -1 / 2, -1 / 2⟩

noncomputable def hexarotorMount : Nat → Frame ℝ
  | 0 => ⟨⟨0, 1, 0⟩, .identity⟩
  | 1 => ⟨⟨0, -1, 0⟩, .identity⟩
  | 2 => ⟨⟨0, 0, 1⟩, forwards⟩
  | 3 => ⟨⟨0, 0, -1⟩, forwards⟩
  | 4 => ⟨⟨1, 0, 0⟩, sideways⟩
  | _ => ⟨⟨-1, 0, 0⟩, sideways⟩

noncomputable def hexarotorRotor (name parent : String) (k : Nat) : SegmentRecord ℝ :=
  ⟨name, some parent, hexarotorMount k, ⟨name ++ "_joint", .rotor Vec3.unitZ⟩, .pointMass 0 0⟩

/-- Along each axis push two rotors, along y on an arm that turns. -/
noncomputable def hexarotorRecords : List (SegmentRecord ℝ) :=
  [⟨"fc", none, .identity, ⟨"fc_root", .floating⟩, .pointMass 1 ⟨-1, 0, 0⟩⟩,
    ⟨"arm", some "fc", .identity, ⟨"hinge", .revolute Vec3.unitZ⟩, .pointMass 1 ⟨1, 0, 0⟩⟩,
    hexarotorRotor "thrust1" "fc" 0, hexarotorRotor "thrust2" "fc" 1,
    hexarotorRotor "thrust3" "fc" 2, hexarotorRotor "thrust4" "fc" 3,
    hexarotorRotor "thrust5" "arm" 4, hexarotorRotor "thrust6" "arm" 5]

noncomputable def hexarotorTree : Tree ℝ :=
  .below hexarotorRecords (fun i => (Vector.ofFn (Tree.parentOf hexarotorRecords)).get i)
    ⟨0, Nat.succ_pos 7⟩

theorem ofRecords_hexarotor : Tree.ofRecords hexarotorRecords = .ok hexarotorTree := rfl

noncomputable def hexarotorConfig : Config ℝ :=
  { Config.standard with strategy := .fullyActuated, dragRatio := 0 }

noncomputable def hexarotorSegments : List (Fin hexarotorTree.size) :=
  [(2 : Fin 8), (3 : Fin 8), (4 : Fin 8), (5 : Fin 8), (6 : Fin 8), (7 : Fin 8)]

noncomputable def hexarotor : Robot ℝ where
  tree := hexarotorTree
  groups := (hexarotorTree.order.foldr hexarotorTree.gather (Vector.replicate 8 0, [])).2
  rotors := ⟨hexarotorSegments, hexarotorSegments.map (RotorLayout.axisDirection _), 0⟩
  baselink := (0 : Fin 8)
  config := hexarotorConfig

theorem place_hexarotor : ∃ frames, hexarotorTree.place ⟨[0]⟩ = .ok frames := ⟨_, rfl⟩

theorem validate_hexarotor : hexarotorConfig.validate = .ok () := by
  have hunit : (Quat.identity : Quat ℝ).isUnit = true := by
    norm_num [Quat.isUnit, Quat.normSq_eq, Quat.identity_eq, Quat.unitTolerance, Scalar.abs_real]
  have horientation : hexarotorConfig.orientation = .ok Quat.identity.normalize := if_pos hunit
  have hdirections : hexarotorConfig.validateDirections = .ok () := rfl
  have hfinite : hexarotorConfig.scalars.find? (fun x => !Scalar.isFinite x.2) = none := by
    simp
  have hdifference : hexarotorConfig.difference.validate = .ok () := by
    norm_num [DifferenceConfig.validate, hexarotorConfig, Config.standard, DifferenceConfig.standard]
    rfl
  rw [Config.validate, hfinite, hdirections, horientation, hdifference]
  norm_num [hexarotorConfig, Config.standard]
  rfl

theorem wellFormed_hexarotor : hexarotorTree.WellFormed :=
  Tree.wellFormed_of_ofRecords ofRecords_hexarotor

theorem find?_hexarotor (name : String) (i : Fin 8) (h : (hexarotorRecords.get i).name = name) :
    hexarotorTree.find? name = some i :=
  wellFormed_hexarotor.find?_eq_some_iff.mpr
    ((@Tree.name_below ℝ hexarotorRecords _ _ i).trans h)

theorem find?_hexarotor_none {name : String} (h : name ∉ hexarotorRecords.map (·.name)) :
    hexarotorTree.find? name = none := by
  refine Option.eq_none_iff_forall_ne_some.mpr fun i hi => h (List.mem_map.mpr ?_)
  exact ⟨_, List.get_mem hexarotorRecords i, (Tree.name_below i).symm.trans (Tree.name_of_find? hi)⟩

theorem numbered_hexarotor :
    RotorLayout.numbered hexarotorTree "thrust" = hexarotorSegments := by
  have hfound : (List.range 8).map
      (fun i => hexarotorTree.find? (RotorLayout.rotorName "thrust" (i + 1))) =
        hexarotorSegments.map some ++ [none, none] := by
    change [hexarotorTree.find? "thrust1", hexarotorTree.find? "thrust2",
      hexarotorTree.find? "thrust3", hexarotorTree.find? "thrust4", hexarotorTree.find? "thrust5",
      hexarotorTree.find? "thrust6", hexarotorTree.find? "thrust7", hexarotorTree.find? "thrust8"] = _
    rw [find?_hexarotor "thrust1" 2 rfl, find?_hexarotor "thrust2" 3 rfl,
      find?_hexarotor "thrust3" 4 rfl, find?_hexarotor "thrust4" 5 rfl,
      find?_hexarotor "thrust5" 6 rfl, find?_hexarotor "thrust6" 7 rfl,
      find?_hexarotor_none (by decide), find?_hexarotor_none (by decide)]
    rfl
  exact congrArg (fun l => (l.takeWhile (·.isSome)).filterMap id) hfound

theorem rotors_hexarotor :
    RotorLayout.ofConfig hexarotorTree hexarotorConfig = .ok hexarotor.rotors := by
  have hresolve : RotorLayout.resolve hexarotorTree "thrust" none = .ok hexarotorSegments := by
    rw [RotorLayout.resolve, numbered_hexarotor]
    rfl
  exact bind_eq_ok.mpr ⟨_, hresolve, rfl⟩

theorem ofConfig_hexarotor : ofConfig hexarotorTree hexarotorConfig = .ok hexarotor := by
  have hbaselink : hexarotorTree.require "fc" = .ok hexarotor.baselink := by
    rw [Tree.require, find?_hexarotor "fc" 0 rfl]
    rfl
  refine bind_eq_ok.mpr ⟨(), ?_, ?_⟩
  · rw [validate_hexarotor]
    rfl
  refine bind_eq_ok.mpr ⟨_, hbaselink, bind_eq_ok.mpr ⟨hexarotor.groups, rfl, ?_⟩⟩
  exact bind_eq_ok.mpr ⟨_, rotors_hexarotor, rfl⟩

theorem rigid_hexarotorMount (k : Nat) : (hexarotorMount k).Rigid := by
  have hforwards : forwards.Unit := by
    norm_num [forwards, Quat.Unit, Quat.normSq_eq]
  have hsideways : sideways.Unit := by
    norm_num [sideways, Quat.Unit, Quat.normSq_eq]
  unfold hexarotorMount
  split
  exacts [Quat.unit_identity, Quat.unit_identity, hforwards, hforwards, hsideways, hsideways]

theorem valid_hexarotor : ∀ r ∈ hexarotorRecords, (r.offset.Rigid ∧
    ∀ axis, r.joint.kind = .revolute axis → axis.normSq = 1) ∧ 0 ≤ r.inertia.mass := by
  have hrotor : ∀ name parent k, ((hexarotorRotor name parent k).offset.Rigid ∧
      ∀ axis, (hexarotorRotor name parent k).joint.kind = .revolute axis → axis.normSq = 1) ∧
        0 ≤ (hexarotorRotor name parent k).inertia.mass := fun name parent k =>
    ⟨⟨rigid_hexarotorMount k, fun axis h => by cases h⟩, le_rfl⟩
  intro r hr
  simp only [hexarotorRecords, List.mem_cons, List.not_mem_nil, or_false] at hr
  rcases hr with rfl | rfl | rfl | rfl | rfl | rfl | rfl | rfl
  · exact ⟨⟨Frame.rigid_identity, fun axis h => by cases h⟩, zero_le_one⟩
  · refine ⟨⟨Frame.rigid_identity, fun axis h => ?_⟩, zero_le_one⟩
    cases h
    norm_num [Vec3.unitZ, Vec3.normSq_eq, Vec3.dot_eq]
  all_goals exact hrotor _ _ _

theorem assembled_hexarotor : hexarotor.Assembled where
  tree := ⟨_, ofRecords_hexarotor⟩
  config := ⟨_, ofConfig_hexarotor⟩
  rigid := Tree.rigid_of_ofRecords ofRecords_hexarotor fun r hr => (valid_hexarotor r hr).1
  mass i := by
    obtain ⟨r, hmem, -, -, hinertia⟩ := Tree.exists_record ofRecords_hexarotor i
    exact hinertia ▸ (valid_hexarotor r hmem).2

/-- Without modules, and level. -/
noncomputable def bare : Setup ℝ := ⟨.empty, .identity⟩

theorem admits_bare (r : Robot ℝ) : r.Admits bare := ⟨.empty, Quat.unit_identity⟩

theorem map_bodies_hexarotor (frames : Placement ℝ hexarotorTree.size) :
    (hexarotorTree.bodies frames .empty).map (fun b => (b.centre * b.inertia.mass : Vec3 ℝ)) =
      [((frames.get (0 : Fin 8)).point ⟨-1, 0, 0⟩ * (1 : ℝ) : Vec3 ℝ),
        ((frames.get (1 : Fin 8)).point ⟨1, 0, 0⟩ * (1 : ℝ) : Vec3 ℝ)] ++
      hexarotorSegments.map fun i => ((frames.get i).point 0 * (0 : ℝ) : Vec3 ℝ) := rfl

section
variable {q : Coordinates ℝ} {frames : Placement ℝ hexarotorTree.size}
  (hq : hexarotorTree.place q = .ok frames)
include hq

theorem frame_hexarotor_base : frames.get (0 : Fin 8) = .identity :=
  Tree.get_root hq rfl

theorem frame_hexarotor_child {i p : Fin hexarotorTree.size}
    (hp : (hexarotorTree.segment i).parent = some p)
    (hm : hexarotorTree.jointMotion q i = .identity) (h : frames.get p = .identity) :
    frames.get i = (hexarotorTree.segment i).offset := by
  rw [wellFormed_hexarotor.get_of_parent hq hp, hm, h, Frame.mul_identity, Frame.identity_mul]

end

section
variable {frames : Placement ℝ hexarotorTree.size} (hq : hexarotorTree.place ⟨[0]⟩ = .ok frames)
include hq

theorem frame_hexarotor_arm : frames.get (1 : Fin 8) = .identity :=
  frame_hexarotor_child hq rfl (congrArg (Frame.mk 0) (Quat.ofAxisAngle_zero _))
    (frame_hexarotor_base hq)

theorem frame_hexarotor_rotor (j : Fin 6) :
    frames.get (hexarotorSegments.get j) = hexarotorMount j := by
  have hbase := frame_hexarotor_base hq
  have harm := frame_hexarotor_arm hq
  fin_cases j
  exacts [frame_hexarotor_child hq rfl rfl hbase, frame_hexarotor_child hq rfl rfl hbase,
    frame_hexarotor_child hq rfl rfl hbase, frame_hexarotor_child hq rfl rfl hbase,
    frame_hexarotor_child hq rfl rfl harm, frame_hexarotor_child hq rfl rfl harm]

theorem centre_bodies_hexarotor :
    ((hexarotorTree.bodies frames .empty).map fun b => (b.centre * b.inertia.mass : Vec3 ℝ)).sum =
      0 := by
  rw [map_bodies_hexarotor]
  simp only [frame_hexarotor_base hq, frame_hexarotor_arm hq, Frame.identity_point, Vec3.mul_zero]
  ext <;> simp

end

theorem mass_bodies_hexarotor (frames : Placement ℝ hexarotorTree.size) :
    ((hexarotorTree.bodies frames .empty).map fun b => b.inertia.mass).sum = 2 := by
  have hmass : (hexarotorTree.bodies frames .empty).map (fun b => b.inertia.mass) =
      [1, 1, 0, 0, 0, 0, 0, 0] := rfl
  rw [hmass]
  norm_num

theorem exists_posture_hexarotor : ∃ p, hexarotor.posture bare ⟨[0]⟩ = .ok p := by
  obtain ⟨frames, hq⟩ := place_hexarotor
  have hr := assembled_hexarotor
  obtain ⟨cog, loaded, ha⟩ := InertiaGroup.aggregate_isOk hr.wellFormed hr.rigid hr.mass hq hr.groups
    .empty (mass_bodies_hexarotor frames ▸ two_pos) hexarotor.baselink .identity
  exact ⟨⟨frames, cog, loaded⟩, bind_eq_ok.mpr ⟨frames, hq, bind_eq_ok.mpr ⟨_, ha, rfl⟩⟩⟩

section
variable {q : Coordinates ℝ} {p : Posture hexarotor.tree.size}
  (h : hexarotor.posture bare q = .ok p)
include h

theorem level_hexarotor : p.cog.level = .identity := by
  have hbase := frame_hexarotor_base (posture_eq_ok.mp h).1
  refine @level_of_posture hexarotor bare _ p .identity ?_ ?_ h
  · exact hbase ▸ Frame.rigid_identity
  · exact (Quat.mul_identity _).symm.trans
      (congrArg (fun f : Frame ℝ => Quat.identity * f.rotation) hbase).symm

theorem moments_hexarotor : p.cog.mass = 2 ∧ (p.cog.position * (2 : ℝ) : Vec3 ℝ) =
    ((hexarotorTree.bodies p.frames .empty).map fun b =>
      (b.centre * b.inertia.mass : Vec3 ℝ)).sum := by
  obtain ⟨hq, hl, hc⟩ := posture_eq_ok.mp h
  have hr := assembled_hexarotor
  obtain ⟨hmass, hcentre, -⟩ := Inertia.eq_sum_bodies
    (InertiaGroup.moments_loaded hr.wellFormed hr.rigid hr.mass hq hr.groups .empty hl)
    (@InertiaGroup.rigid_bodies _ _ _ hexarotor.groups _ hr.rigid hq .empty)
  obtain ⟨hcm, hcp, -⟩ := CentreOfGravity.ofBody_eq_ok hc
  have htwo := hmass.trans (mass_bodies_hexarotor p.frames)
  rw [htwo] at hcentre
  have hscaled := congrArg (fun c : Vec3 ℝ => (c * (2 : ℝ) : Vec3 ℝ)) hcp
  exact ⟨hcm.trans htwo, hscaled.trans hcentre⟩

end

section
variable {p : Posture hexarotor.tree.size} (h : hexarotor.posture bare ⟨[0]⟩ = .ok p)
include h

theorem centre_hexarotor : p.cog.mass = 2 ∧ p.cog.position = 0 := by
  obtain ⟨hmass, hcentre⟩ := moments_hexarotor h
  exact ⟨hmass, Vec3.eq_zero_of_mul two_ne_zero
    (hcentre.trans (centre_bodies_hexarotor (posture_eq_ok.mp h).1))⟩

theorem levelPosition_hexarotor : p.cog.levelPosition = 0 := by
  rw [CentreOfGravity.levelPosition, (centre_hexarotor h).2, Quat.rotate_zero]

end

end Robot

end Multirotor
