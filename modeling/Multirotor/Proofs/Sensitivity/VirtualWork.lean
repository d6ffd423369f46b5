import Multirotor.Proofs.Hover
import Multirotor.Proofs.JointNumbering
import Multirotor.Sensitivity.Analytic

/-!
# Virtual work

While a joint bends, the segments beyond it turn about its axis, so a load there
does the work of its moment about the axis and every other load does none
(`sum_power`). The torques that hold the joints are the velocities of the
analytic rule read the other way: joint by joint they take up the power of all
loads (`jointTorque_eq_neg_power`).
-/

namespace Multirotor

/-- The velocities of a tree whose segments stand in the given frames. -/
def Tree.velocities {α : Type} [Scalar α] (t : Tree α) (frames : Placement α t.size)
    (level : Quat α) : VelocityField α :=
  ⟨t, t.jointAxes frames level, level.toMatrix⟩

/-- At a solved state they are those of the analytic rule. -/
theorem Robot.Hovers.velocities_eq [SingularValues ℝ] {r : Robot ℝ} {setup : Setup ℝ}
    {q : Coordinates ℝ} {s : HoverState ℝ r.tree.size} (h : r.Hovers setup q s) :
    r.velocities s = r.tree.velocities s.frames s.cog.level := by
  rw [velocities, h.axes]
  rfl

theorem Tree.dot_momentBeyond {t : Tree ℝ} (u : Vec3 ℝ) (joint : JointAxis ℝ t.size)
    (loads : List (Load ℝ t.size)) : u.dot (t.momentBeyond joint loads) = (loads.map fun l =>
      if t.moves joint.coordinate l.segment then u.dot (l.momentAbout joint.origin) else 0).sum := by
  rw [momentBeyond, Vec3.sum_real]
  induction loads with
  | nil => exact Vec3.dot_zero u
  | cons l loads ih =>
    rw [List.map_cons, List.sum_cons, ← ih, List.filter_cons]
    split
    · rw [List.map_cons, List.sum_cons, Vec3.dot_add]
    · rw [zero_add]

namespace VelocityField

/-- The power of a load while its segment moves. -/
def power {α : Type} [Scalar α] (f : VelocityField α) (m : Motion) (l : Load α f.tree.size) : α :=
  l.force.dot (f.point m l.segment l.point) + l.moment.dot (f.angular m l.segment)

variable {f : VelocityField ℝ} {c : Nat} {joint : JointAxis ℝ f.tree.size}

/-- Beyond a joint the power is that of the moment about its axis. -/
theorem power_bend (hc : f.axes[c]? = some joint) (l : Load ℝ f.tree.size) :
    f.power (.bend c) l =
      if f.tree.moves c l.segment then joint.axis.dot (l.momentAbout joint.origin) else 0 := by
  cases h : f.tree.moves c l.segment with
  | true =>
    have hhinge : f.hinge? c l.segment = some joint := (if_pos h).trans hc
    have hlever : l.force.dot (joint.axis.cross (l.point - joint.origin)) =
        joint.axis.dot ((l.point - joint.origin).cross l.force) := by
      rw [Vec3.dot_comm, Vec3.cross_dot]
    simp only [power, point, angular, hhinge, if_true]
    rw [hlever, Vec3.dot_comm l.moment, ← Vec3.dot_add, Load.momentAbout]
  | false =>
    have hhinge : f.hinge? c l.segment = none := if_neg (Bool.not_eq_true _ ▸ h)
    simp [power, point, angular, hhinge]

theorem sum_power (hc : f.axes[c]? = some joint) (hcoordinate : joint.coordinate = c)
    (loads : List (Load ℝ f.tree.size)) :
    (loads.map (f.power (.bend c))).sum = joint.axis.dot (f.tree.momentBeyond joint loads) := by
  rw [Tree.dot_momentBeyond, hcoordinate]
  exact congrArg List.sum (List.map_congr_left fun l _ => power_bend hc l)

end VelocityField

namespace Tree

variable {t : Tree ℝ}

/-- Against a joint act all loads with the power that they have while it bends at unit rate. -/
theorem jointTorque_eq_neg_power {records : List (SegmentRecord ℝ)} (h : ofRecords records = .ok t)
    (frames : Placement ℝ t.size) (level : Quat ℝ) (loads : List (Load ℝ t.size)) :
    (t.jointAxes frames level).map (t.jointTorque loads) =
      (List.range t.jointCount).map fun c =>
        -(loads.map ((t.velocities frames level).power (.bend c))).sum := by
  have hw := wellFormed_of_ofRecords h
  have hr := rooted_of_ofRecords h
  refine List.ext_getElem? fun c => ?_
  have haxis : (t.jointAxes frames level)[c]? = t.joints[c]?.map (t.jointAxis frames level c) :=
    getElem?_jointAxes hw hr level
  rw [List.getElem?_map, List.getElem?_map]
  cases hj : t.joints[c]? with
  | none =>
    have hrange : (List.range t.jointCount)[c]? = none :=
      List.getElem?_eq_none (List.length_range.trans_le (List.getElem?_eq_none_iff.mp hj))
    rw [haxis, hj, hrange]
    rfl
  | some j =>
    rw [hj] at haxis
    have hrange : (List.range t.jointCount)[c]? = some c :=
      List.getElem?_range (List.getElem?_eq_some_iff.mp hj).1
    have hpower := VelocityField.sum_power (f := t.velocities frames level) haxis rfl loads
    rw [haxis, hrange]
    exact congrArg (fun x => some (-x)) hpower.symm

theorem jointTorque_finger : ∃ t, ofRecords finger = .ok t ∧ t.jointNames = ["spread", "bend"] ∧
    ∀ frames level (loads : List (Load ℝ t.size)),
      (t.jointAxes frames level).map (t.jointTorque loads) =
        (List.range t.jointCount).map fun c =>
          -(loads.map ((t.velocities frames level).power (.bend c))).sum := by
  obtain ⟨t, h, hnames⟩ : ∃ t, ofRecords finger = .ok t ∧ t.jointNames = ["spread", "bend"] :=
    ⟨_, rfl, rfl⟩
  exact ⟨t, h, hnames, jointTorque_eq_neg_power h⟩

end Tree

end Multirotor
