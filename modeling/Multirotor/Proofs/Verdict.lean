import Multirotor.Proofs.Equilibrium
import Multirotor.Proofs.Margin

/-!
# Verdicts

Thrusts within their bounds that balance a load make the wrench that the load
requires, so what is required is achievable and no margin is negative
(`exactMargin_nonneg_of_solve`). With all axes controlled and no threshold
above zero, the bounds of the thrusts alone decide whether a state is stable.
-/

namespace Multirotor

/-! ## Bounded thrusts -/

namespace ThrustRange

variable {r : ThrustRange ℝ} {generators : List (Vec3 ℝ)} {p : Vec3 ℝ}

theorem Achievable.get_map {β : Type} {items : List β} {f : β → Vec3 ℝ}
    (h : r.Achievable (fun k => f (items.get k)) p) : r.Achievable (items.map f).get p := by
  obtain ⟨t, ht, hsum⟩ := h
  refine ⟨fun k => t (k.cast (List.length_map f)), fun k => ht _, ?_⟩
  rw [← hsum]
  refine Fintype.sum_equiv (finCongr (List.length_map f)) _ _ fun k => ?_
  rw [List.get_eq_getElem, List.getElem_map]
  rfl

/-- Without faces the margin is zero, and no face separates what is achievable. -/
theorem Achievable.exactMargin_nonneg (h : r.Achievable generators.get p) :
    0 ≤ (r.margins generators p).exactMargin := by
  cases hf : facePairs? generators with
  | none => rw [margins_of_none hf]
  | some pairs => exact (le_exactMargin_iff_excess hf p 0).mpr fun _ _ => h.excess_nonneg _

end ThrustRange

namespace Allocation

variable {r : ThrustRange ℝ} {a : Allocation ℝ} {thrust : List ℝ}

theorem wrench_achievable (hlen : thrust.length = a.rotorCount) (hb : ∀ t ∈ thrust, r.Admits t) :
    r.Achievable a.forces.get (a.wrench thrust).force ∧
      r.Achievable a.torques.get (a.wrench thrust).torque := by
  obtain ⟨f, rfl⟩ := exists_ofFn hlen
  have hwrench := wrench_ofFn a.columns.get f
  rw [List.ofFn_get] at hwrench
  have hadmits : ∀ j, r.Admits (f j) := fun j => hb _ (List.mem_ofFn.mpr ⟨j, rfl⟩)
  have hforce : r.Achievable (fun j => (a.columns.get j).force) (a.wrench (List.ofFn f)).force :=
    ⟨f, hadmits, (congrArg Wrench.force hwrench).symm⟩
  have htorque : r.Achievable (fun j => (a.columns.get j).torque) (a.wrench (List.ofFn f)).torque :=
    ⟨f, hadmits, (congrArg Wrench.torque hwrench).symm⟩
  exact ⟨hforce.get_map, htorque.get_map⟩

end Allocation

/-! ## Verdicts of solved states -/

namespace Robot

section
variable [SingularValues ℝ] {r : Robot ℝ} {setup : Setup ℝ} {q : Coordinates ℝ}
  {s : HoverState ℝ r.tree.size}

theorem assess_of_solve (h : r.solve setup q = .ok s) :
    s.margins = r.range.hoverMargins s.allocation s.cog.mass r.config.gravity ∧
      s.verdict = r.criteria.assess s.margins.force.exactMargin s.margins.torque.exactMargin
        s.thrust.thrust := by
  obtain ⟨frames, -, h⟩ := bind_eq_ok.mp h
  obtain ⟨⟨cog, loaded⟩, -, h⟩ := bind_eq_ok.mp h
  obtain ⟨thrust, -, h⟩ := bind_eq_ok.mp h
  cases h
  exact ⟨rfl, rfl⟩

theorem thrust_verdict_iff (h : r.solve setup q = .ok s) :
    s.verdict.thrust = true ↔ ∀ t ∈ s.thrust.thrust, r.range.Admits t := by
  rw [(assess_of_solve h).2]
  refine List.all_eq_true.trans (forall₂_congr fun t _ => ?_)
  rw [Bool.and_eq_true, decide_eq_true_iff, decide_eq_true_iff]
  rfl

theorem Hovers.torque_eq (h : r.Hovers setup q s) :
    (s.allocation.wrench s.thrust.thrust).torque = 0 := by
  rw [h.balances.2.torque_eq, h.gravity]
  exact neg_zero

theorem Hovers.force_eq (h : r.Hovers setup q s) (hfull : r.config.strategy = .fullyActuated) :
    (s.allocation.wrench s.thrust.thrust).force = hoverForce s.cog.mass r.config.gravity := by
  obtain ⟨-, hbalance⟩ := h.balances
  rw [hfull] at hbalance
  rw [hbalance.force_eq, h.gravity]
  ext
  · exact neg_zero
  · exact neg_zero
  · change -(-s.cog.mass * r.config.gravity) = s.cog.mass * r.config.gravity
    rw [neg_mul, neg_neg]

theorem margins_nonneg (h : r.solve setup q = .ok s) (hthrust : s.verdict.thrust = true) :
    0 ≤ s.margins.torque.exactMargin ∧
      (r.config.strategy = .fullyActuated → 0 ≤ s.margins.force.exactMargin) := by
  have hs := hovers_of_solve h
  obtain ⟨hforce, htorque⟩ :=
    Allocation.wrench_achievable hs.balances.1 ((thrust_verdict_iff h).mp hthrust)
  rw [(assess_of_solve h).1]
  rw [hs.torque_eq] at htorque
  refine ⟨htorque.exactMargin_nonneg, fun hfull => ?_⟩
  rw [hs.force_eq hfull] at hforce
  exact hforce.exactMargin_nonneg

theorem stable_eq_thrust (h : r.solve setup q = .ok s) (hfull : r.config.strategy = .fullyActuated)
    (hforce : r.config.forceThreshold ≤ 0) (htorque : r.config.torqueThreshold ≤ 0) :
    s.verdict.stable = s.verdict.thrust := by
  cases hthrust : s.verdict.thrust with
  | false => simp [Verdict.stable, hthrust]
  | true =>
    obtain ⟨ht, hf⟩ := margins_nonneg h hthrust
    have hforceOk : s.verdict.force = true := by
      rw [(assess_of_solve h).2]
      exact decide_eq_true (hforce.trans (hf hfull))
    have htorqueOk : s.verdict.torque = true := by
      rw [(assess_of_solve h).2]
      exact decide_eq_true (htorque.trans ht)
    simp [Verdict.stable, hforceOk, htorqueOk, hthrust]

/-- Thrusts within their bounds leave no negative margin on the axes that they balance. -/
theorem exactMargin_nonneg_of_solve (h : r.solve setup q = .ok s) :
    (s.verdict.thrust = true → 0 ≤ s.margins.torque.exactMargin ∧
      (r.config.strategy = .fullyActuated → 0 ≤ s.margins.force.exactMargin)) ∧
    (r.config.strategy = .fullyActuated → r.config.forceThreshold ≤ 0 →
      r.config.torqueThreshold ≤ 0 → s.verdict.stable = s.verdict.thrust) :=
  ⟨margins_nonneg h, stable_eq_thrust h⟩

end

/-! ## A verdict on the robot with six rotors -/

theorem wrench_hexarotor (f : Fin 6 → ℝ) :
    (⟨List.ofFn hexarotorWrench⟩ : Allocation ℝ).wrench (List.ofFn f) =
      ⟨⟨f 2 + f 3, f 4 + f 5, f 0 + f 1⟩, ⟨f 0 - f 1, f 2 - f 3, f 4 - f 5⟩⟩ := by
  rw [Allocation.wrench_ofFn, Fin.sum_univ_six, Fin.sum_univ_six]
  refine congrArg₂ Wrench.mk ?_ ?_ <;> ext <;>
    simp [hexarotorWrench, Vec3.unitX, Vec3.unitY, Vec3.unitZ, sub_eq_add_neg]

theorem range_hexarotor : hexarotor.range = ⟨0, 10, 10⟩ := by
  norm_num [range, ThrustRange.ofConfig, hexarotor, hexarotorConfig, Config.standard]

/-- The first two rotors carry the robot, and the others rest. -/
theorem admits_of_balances_hexarotor {p : Posture hexarotor.tree.size}
    (h : hexarotor.posture bare ⟨[0]⟩ = .ok p) {thrust : List ℝ}
    (hlen : thrust.length = (hexarotor.allocationAt p).rotorCount)
    (hbalance : (hexarotor.allocationAt p).Balances .fullyActuated (hexarotor.gravityAt p) thrust) :
    ∀ t ∈ thrust, hexarotor.range.Admits t := by
  have hgravity : hexarotor.gravityAt p = ⟨⟨0, 0, -2 * 9.80665⟩, 0⟩ := by
    rw [gravityAt, (centre_hexarotor h).1]
    rfl
  rw [allocationAt_hexarotor h] at hlen hbalance
  obtain ⟨f, rfl⟩ := exists_ofFn (n := 6) hlen
  rw [hgravity, Allocation.Balances, wrench_hexarotor] at hbalance
  have hforward : f 2 + f 3 = -0 := hbalance 0 (by decide)
  have hsideward : f 4 + f 5 = -0 := hbalance 1 (by decide)
  have hlift : f 0 + f 1 = -(-2 * 9.80665) := hbalance 2 (by decide)
  have hroll : f 0 - f 1 = -0 := hbalance 3 (by decide)
  have hpitch : f 2 - f 3 = -0 := hbalance 4 (by decide)
  have hyaw : f 4 - f 5 = -0 := hbalance 5 (by decide)
  rw [range_hexarotor]
  change ∀ t ∈ [f 0, f 1, f 2, f 3, f 4, f 5], 0 ≤ t ∧ t ≤ 10
  intro t ht
  simp only [List.mem_cons, List.not_mem_nil, or_false] at ht
  rcases ht with rfl | rfl | rfl | rfl | rfl | rfl <;> constructor <;> linarith

theorem exactMargin_nonneg_of_solve_hexarotor :
    ∃ s, @solve ℝ _ hexarotorValues hexarotor bare ⟨[0]⟩ = .ok s ∧ s.verdict.thrust = true ∧
      0 ≤ s.margins.torque.exactMargin ∧ 0 ≤ s.margins.force.exactMargin ∧
      s.verdict.stable = true := by
  obtain ⟨s, hsolve⟩ := solve_hexarotor
  have hs := @hovers_of_solve _ hexarotorValues _ _ _ hsolve
  obtain ⟨hlen, hbalance⟩ := @Hovers.balances hexarotorValues _ _ _ _ hs
  obtain ⟨hposture, -, -, hallocation, hgravity, -, -, -⟩ := hs
  rw [hallocation] at hlen
  rw [hallocation, hgravity] at hbalance
  have hthrust := (@thrust_verdict_iff hexarotorValues _ _ _ _ hsolve).mpr
    (admits_of_balances_hexarotor hposture hlen hbalance)
  obtain ⟨hmargins, hstable⟩ := @exactMargin_nonneg_of_solve hexarotorValues _ _ _ _ hsolve
  obtain ⟨htorque, hforce⟩ := hmargins hthrust
  exact ⟨s, hsolve, hthrust, htorque, hforce rfl, (hstable rfl le_rfl le_rfl).trans hthrust⟩

end Robot

end Multirotor
