import Multirotor.Proofs.Determined
import Multirotor.Proofs.RotatedMargin

/-!
# Upright rotations

A rotation that keeps the vertical keeps the axes apart that rotors control
and those that they do not. Rotors turned by it need the same thrusts for a
load that it keeps, and are refused for the same reasons
(`staticThrust_turned`).
-/

namespace Multirotor

open Matrix

namespace Quat

structure Upright (z : Quat ℝ) : Prop where
  unit : z.Unit
  axis : z.rotate Vec3.unitZ = Vec3.unitZ

noncomputable def yaw (angle : ℝ) : Quat ℝ := ofAxisAngle Vec3.unitZ angle

theorem upright_yaw (angle : ℝ) : (yaw angle).Upright where
  unit := unit_ofAxisAngle (by norm_num [Vec3.unitZ, Vec3.normSq_eq, Vec3.dot_eq]) angle
  axis := by
    unfold yaw
    rw [ofAxisAngle_eq, rotate_eq]
    ext <;> simp [vector, Vec3.unitZ]

variable {z : Quat ℝ}

theorem Upright.rotate_z (hz : z.Upright) (v : Vec3 ℝ) : (z.rotate v).z = v.z := by
  have h := hz.unit.rotate_dot_rotate Vec3.unitZ v
  rwa [hz.axis, Vec3.unitZ_dot, Vec3.unitZ_dot] at h

theorem Upright.rotate_vertical (hz : z.Upright) (s : ℝ) :
    z.rotate ⟨0, 0, s⟩ = ⟨0, 0, s⟩ := by
  have hs : (⟨0, 0, s⟩ : Vec3 ℝ) = (Vec3.unitZ : Vec3 ℝ) * s := by
    ext <;> simp [Vec3.unitZ]
  rw [hs, rotate_mul, hz.axis]

theorem Unit.rotate_inj (hz : z.Unit) {u v : Vec3 ℝ} : z.rotate u = z.rotate v ↔ u = v := by
  refine ⟨fun h => ?_, congrArg _⟩
  have hzero : z.rotate (u - v) = 0 := by
    rw [rotate_sub, h, sub_self]
  rw [← sub_eq_zero, ← Vec3.normSq_eq_zero, ← hz.normSq_rotate, hzero, Vec3.normSq_eq_zero]

end Quat

variable {z : Quat ℝ}

/-! ## Wrenches -/

namespace Wrench

noncomputable def turned (z : Quat ℝ) (w : Wrench ℝ) : Wrench ℝ :=
  ⟨z.rotate w.force, z.rotate w.torque⟩

def Agree (s : Strategy) (v w : Wrench ℝ) : Prop := ∀ axis ∈ s.axes, v.get axis = w.get axis

/-- The product of two columns of the controlled rows. -/
noncomputable def inner (s : Strategy) (v w : Wrench ℝ) : ℝ :=
  ∑ i : Fin s.axes.length, v.get (s.axes.get i) * w.get (s.axes.get i)

variable {v w : Wrench ℝ} {s : Strategy}

theorem agree_underActuated :
    Agree .underActuated v w ↔ v.force.z = w.force.z ∧ v.torque = w.torque := by
  simp [Agree, Strategy.axes, get, Vec3.ext_iff]

theorem agree_fullyActuated :
    Agree .fullyActuated v w ↔ v.force = w.force ∧ v.torque = w.torque := by
  simp [Agree, Strategy.axes, get, Vec3.ext_iff, and_assoc]

/-- Turning about the vertical keeps the axes apart that are controlled and those that are not. -/
theorem agree_turned (hz : z.Upright) : Agree s (v.turned z) (w.turned z) ↔ Agree s v w := by
  cases s with
  | underActuated =>
    simp only [agree_underActuated, turned, hz.rotate_z, hz.unit.rotate_inj]
  | fullyActuated => simp only [agree_fullyActuated, turned, hz.unit.rotate_inj]

theorem inner_turned (hz : z.Upright) : inner s (v.turned z) (w.turned z) = inner s v w := by
  have htorque := hz.unit.rotate_dot_rotate v.torque w.torque
  have hforce := hz.unit.rotate_dot_rotate v.force w.force
  have hv := hz.rotate_z v.force
  have hw := hz.rotate_z w.force
  rw [Vec3.dot_eq, Vec3.dot_eq] at htorque hforce
  cases s with
  | underActuated =>
    have hsum : ∀ f : Fin 6 → ℝ,
        ∑ i, f (Strategy.underActuated.axes.get i) = f 2 + f 3 + f 4 + f 5 := fun f =>
      Fin.sum_univ_four _
    unfold inner
    rw [hsum fun k => (v.turned z).get k * (w.turned z).get k, hsum fun k => v.get k * w.get k]
    simp only [get, turned, hv, hw]
    linarith
  | fullyActuated =>
    have hsum : ∀ f : Fin 6 → ℝ, ∑ i, f (Strategy.fullyActuated.axes.get i) =
        f 0 + f 1 + f 2 + f 3 + f 4 + f 5 := fun f => Fin.sum_univ_six _
    unfold inner
    rw [hsum fun k => (v.turned z).get k * (w.turned z).get k, hsum fun k => v.get k * w.get k]
    simp only [get, turned]
    linarith

theorem turned_zero (z : Quat ℝ) : (0 : Wrench ℝ).turned z = 0 :=
  congrArg₂ Wrench.mk z.rotate_zero z.rotate_zero

theorem turned_add (z : Quat ℝ) (v w : Wrench ℝ) : (v + w).turned z = v.turned z + w.turned z :=
  congrArg₂ Wrench.mk (z.rotate_add _ _) (z.rotate_add _ _)

theorem turned_mul (z : Quat ℝ) (w : Wrench ℝ) (t : ℝ) : (w * t).turned z = w.turned z * t :=
  congrArg₂ Wrench.mk (z.rotate_mul _ _) (z.rotate_mul _ _)

theorem turned_foldl_add (z : Quat ℝ) (ws : List (Wrench ℝ)) (w : Wrench ℝ) :
    (ws.foldl (· + ·) w).turned z = (ws.map (turned z)).foldl (· + ·) (w.turned z) := by
  induction ws generalizing w with
  | nil => rfl
  | cons v ws ih => rw [List.foldl_cons, ih, turned_add, List.map_cons, List.foldl_cons]

theorem turned_gravity (hz : z.Upright) (mass acceleration : ℝ) :
    (gravity mass acceleration).turned z = gravity mass acceleration :=
  congrArg₂ Wrench.mk (hz.rotate_vertical _) z.rotate_zero

end Wrench

/-! ## Static thrust -/

namespace Allocation

noncomputable def turned (z : Quat ℝ) (a : Allocation ℝ) : Allocation ℝ :=
  ⟨a.columns.map (Wrench.turned z)⟩

variable {a : Allocation ℝ} {s : Strategy} {limit : ℝ} {load : Wrench ℝ} {thrust : List ℝ}

theorem rotorCount_turned (z : Quat ℝ) (a : Allocation ℝ) :
    (a.turned z).rotorCount = a.rotorCount := List.length_map _

theorem wrench_turned (z : Quat ℝ) (a : Allocation ℝ) (thrust : List ℝ) :
    (a.turned z).wrench thrust = (a.wrench thrust).turned z := by
  unfold wrench turned
  rw [Wrench.turned_foldl_add, Wrench.turned_zero, List.zip_map_left, List.map_map, List.map_map]
  simp only [Function.comp_def, Prod.map_fst, Prod.map_snd, id_eq, Wrench.turned_mul]

theorem balances_turned (hz : z.Upright) (hload : load.turned z = load) :
    (a.turned z).Balances s load thrust ↔ a.Balances s load thrust := by
  let demand : Wrench ℝ := ⟨-load.force, -load.torque⟩
  have hdemand : ∀ axis, -load.get axis = demand.get axis := fun axis => by
    fin_cases axis <;> rfl
  have hturned : demand.turned z = demand := by
    conv_rhs => rw [show demand = ⟨-(load.turned z).force, -(load.turned z).torque⟩ by rw [hload]]
    exact congrArg₂ Wrench.mk (z.rotate_neg _) (z.rotate_neg _)
  have hagree : Wrench.Agree s ((a.wrench thrust).turned z) demand ↔
      Wrench.Agree s (a.wrench thrust) demand := by
    conv_lhs => rw [← hturned]
    exact Wrench.agree_turned hz
  unfold Balances
  simp only [hdemand, wrench_turned]
  exact hagree

theorem Least.turned (hz : z.Upright) (hload : load.turned z = load) (h : a.Least s load thrust) :
    (a.turned z).Least s load thrust := by
  refine ⟨h.length.trans (rotorCount_turned z a).symm, (balances_turned hz hload).mpr h.balances,
    fun other hlen hother => ?_⟩
  exact h.shortest other (hlen.trans (rotorCount_turned z a)) ((balances_turned hz hload).mp hother)

section
variable [SingularValues ℝ]

theorem Dense.rankAndCondition_cast {m n k : Nat} (h : n = k) (a : Dense ℝ m k) :
    (Dense.ofFn fun i j => a.entry i (j.cast h)).rankAndCondition = a.rankAndCondition := by
  subst h
  exact congrArg Dense.rankAndCondition (Dense.entry_ext fun i j => by simp)

theorem rankAndCondition_turned (hv : SingularValues.Exact ‹SingularValues ℝ›) (hz : z.Upright)
    (a : Allocation ℝ) (s : Strategy) : ((a.turned z).controlled s).rankAndCondition =
      (a.controlled s).rankAndCondition := by
  have hn := (rotorCount_turned z a).symm
  rw [← Dense.rankAndCondition_cast hn]
  refine Dense.rankAndCondition_congr hv ?_
  ext j k
  have hcolumn : ∀ j : Fin a.rotorCount, (a.turned z).columns.get (j.cast hn) =
      (a.columns.get j).turned z := fun j => List.getElem_map _
  calc _ = Wrench.inner s ((a.columns.get j).turned z) ((a.columns.get k).turned z) := by
        simp only [mul_apply, transpose_apply, Dense.toMatrix, of_apply, Dense.entry_ofFn,
          controlled]
        exact Finset.sum_congr rfl fun i _ => congrArg₂
          (fun v w : Wrench ℝ => v.get (s.axes.get i) * w.get (s.axes.get i)) (hcolumn j) (hcolumn k)
    _ = Wrench.inner s (a.columns.get j) (a.columns.get k) := Wrench.inner_turned hz
    _ = _ := by
        simp only [mul_apply, transpose_apply, Dense.toMatrix, of_apply, Dense.entry_ofFn,
          controlled, Wrench.inner]

theorem staticThrust_turned (hv : SingularValues.Exact ‹SingularValues ℝ›) (hz : z.Upright)
    (hload : load.turned z = load) :
    (a.turned z).staticThrust s limit load = a.staticThrust s limit load := by
  have hrank := rankAndCondition_turned hv hz a s
  have hrefused : (a.turned z).Refused s limit ↔ a.Refused s limit := by
    unfold Refused
    rw [hrank, rotorCount_turned]
  by_cases h : a.Refused s limit
  · rw [staticThrust_of_refused h, staticThrust_of_refused (hrefused.mpr h), refusal, refusal, hrank]
  · obtain ⟨x, hx, hok⟩ := staticThrust_of_allowed hv h load
    obtain ⟨x', hx', hok'⟩ := staticThrust_of_allowed hv (hrefused.not.mpr h) load
    rw [hok, hok', hrank, hx'.unique (hx.turned hz hload)]

end

end Allocation

end Multirotor
