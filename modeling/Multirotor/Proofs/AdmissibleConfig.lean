import Multirotor.Proofs.Floating
import Multirotor.Proofs.RotorNumbering
import Multirotor.Robot

/-!
# Admissible configurations

A configuration is tested for what it must not be, and an undefined number is
neither below nor above another. As all numbers are tested for being finite
first, it passes exactly if it is what it has to be (`Config.Admissible`,
`Config.validate_eq_ok_iff`). So what a robot is built with is finite, its
thrusts have a range, and it has an orientation to start with
(`Robot.settled_of_ofConfig`).
-/

namespace Multirotor

section
variable {α : Type} [Scalar α]

/-! ## Conditions and tests -/

structure DifferenceConfig.Admissible (c : DifferenceConfig α) : Prop where
  perturbation : Scalar.isFinite c.perturbation = true ∧ 0 < c.perturbation
  tolerance : Scalar.isFinite c.tolerance = true ∧ 0 < c.tolerance

namespace Config

/-- What a configuration has to be. -/
structure Admissible (c : Config α) : Prop where
  finite : ∀ x ∈ [c.thrustMin, c.thrustMax, c.gravity, c.dragRatio, c.forceThreshold,
    c.torqueThreshold, c.sharpness, c.conditionLimit], Scalar.isFinite x = true
  thrusts : 0 ≤ c.thrustMin ∧ c.thrustMin < c.thrustMax
  gravity : 0 < c.gravity
  dragRatio : 0 ≤ c.dragRatio
  sharpness : 0 < c.sharpness
  conditionLimit : 1 < c.conditionLimit
  directions : ∀ given, c.rotorDirections = some given →
    (∀ d ∈ given, d = 1 ∨ d = -1) ∧ ∀ n, c.rotorCount = some n → given.length = n
  /-- The squared norm is one, but for a tolerance. -/
  orientation : Scalar.abs (1 - c.desiredOrientation.normSq) ≤ 1e-6
  difference : c.difference.Admissible

variable {c : Config α}

theorem find?_scalars_eq_none_iff :
    (c.scalars.find? fun (_, x) => !Scalar.isFinite x) = none ↔
      ∀ x ∈ [c.thrustMin, c.thrustMax, c.gravity, c.dragRatio, c.forceThreshold,
        c.torqueThreshold, c.sharpness, c.conditionLimit], Scalar.isFinite x = true := by
  have hvalues : [c.thrustMin, c.thrustMax, c.gravity, c.dragRatio, c.forceThreshold,
      c.torqueThreshold, c.sharpness, c.conditionLimit] = c.scalars.map Prod.snd := rfl
  rw [hvalues, List.forall_mem_map, List.find?_eq_none]
  exact forall₂_congr fun p _ => by simp

theorem finite_or_refused {k : Unit → Except (ConfigError α) Unit} :
    (match c.scalars.find? fun (_, x) => !Scalar.isFinite x with
      | some (s, _) => throw (ConfigError.notFinite s) >>= k
      | _ => k ()) = .ok () ↔
    (c.scalars.find? fun (_, x) => !Scalar.isFinite x) = none ∧ k () = .ok () := by
  cases c.scalars.find? fun (_, x) => !Scalar.isFinite x with
  | none => exact (and_iff_right rfl).symm
  | some p => exact iff_of_false nofun nofun

theorem validateDirections_eq_ok_iff : c.validateDirections = .ok () ↔
    ∀ given, c.rotorDirections = some given →
      (∀ d ∈ given, (d == 1) = true ∨ (d == -1) = true) ∧
        ∀ n, c.rotorCount = some n → given.length = n := by
  unfold validateDirections
  cases c.rotorDirections with
  | none => exact iff_of_true rfl nofun
  | some given =>
    have hsigns : ¬(given.any fun d => !(d == 1) && !(d == -1)) = true ↔
        ∀ d ∈ given, (d == 1) = true ∨ (d == -1) = true := by
      simp [Decidable.or_iff_not_imp_left]
    refine (refuse_eq_ok.trans (and_congr_left' hsigns)).trans ?_
    simp only [Option.some.injEq, forall_eq']
    refine and_congr_right' ?_
    cases c.rotorCount with
    | none => exact iff_of_true rfl nofun
    | some n =>
      refine (demand_eq_ok (k := pure)).trans ?_
      simp [pure, Except.pure]

theorem orientation_eq_ok_iff {q : Quat α} : c.orientation = .ok q ↔
    Scalar.abs (1 - c.desiredOrientation.normSq) ≤ 1e-6 ∧ q = c.desiredOrientation.normalize := by
  have hunit : c.desiredOrientation.isUnit = true ↔
    Scalar.abs (1 - c.desiredOrientation.normSq) ≤ 1e-6 := decide_eq_true_iff
  rw [← hunit]
  unfold orientation
  split
  · rename_i h
    rw [Except.ok.injEq, eq_comm, and_iff_right h]
  · rename_i h
    exact iff_of_false nofun fun hq => h hq.1

/-- The tests as they stand, one after the other. -/
theorem validate_eq_ok_iff_tests : c.validate = .ok () ↔
    (c.scalars.find? fun (_, x) => !Scalar.isFinite x) = none ∧ ¬c.thrustMin < 0 ∧
      ¬c.thrustMax ≤ c.thrustMin ∧ ¬c.gravity ≤ 0 ∧ ¬c.dragRatio < 0 ∧ ¬c.sharpness ≤ 0 ∧
        ¬c.conditionLimit ≤ 1 ∧ c.validateDirections = .ok () ∧ (∃ q, c.orientation = .ok q) ∧
          c.difference.validate = .ok () := by
  refine finite_or_refused.trans (and_congr_right' ?_)
  iterate 6 refine refuse_eq_ok.trans (and_congr_right' ?_)
  refine bind_eq_ok.trans ?_
  simp only [bind_eq_ok]
  exact ⟨fun ⟨_, hdirections, q, hq, hdifference⟩ => ⟨hdirections, ⟨q, hq⟩, hdifference⟩,
    fun ⟨hdirections, ⟨q, hq⟩, hdifference⟩ => ⟨(), hdirections, q, hq, hdifference⟩⟩

end Config

theorem DifferenceConfig.validate_eq_ok_iff {c : DifferenceConfig α} :
    c.validate = .ok () ↔ c.Admissible := by
  refine demand_eq_ok.trans ?_
  refine (and_congr_right' (demand_eq_ok (k := pure))).trans ?_
  exact ⟨fun h => ⟨h.1, h.2.1⟩, fun h => ⟨h.1, h.2, rfl⟩⟩

end

/-! ## Passing the tests -/

theorem Scalar.beq_sign_iff (d : Float) :
    ((d == 1) = true ∨ (d == -1) = true) ↔ d = 1 ∨ d = -1 := by
  have hone : (1 : Float).toModel.unpack = .finite .positive (2 ^ 52) (-52) (by decide) := rfl
  have hneg : (-1 : Float).toModel.unpack = .finite .negative (2 ^ 52) (-52) (by decide) := rfl
  exact or_congr (beq_iff_eq hone) (beq_iff_eq hneg)

namespace Config

variable {c : Config Float}

theorem validateDirections_eq_ok_iff_signs : c.validateDirections = .ok () ↔
    ∀ given, c.rotorDirections = some given →
      (∀ d ∈ given, d = 1 ∨ d = -1) ∧ ∀ n, c.rotorCount = some n → given.length = n :=
  validateDirections_eq_ok_iff.trans <| forall₂_congr fun _ _ =>
    and_congr_left' (forall₂_congr fun d _ => Scalar.beq_sign_iff d)

/-- Finite numbers that do not stand one way stand the other way. -/
theorem orderTests_iff (hfinite : ∀ x ∈ [c.thrustMin, c.thrustMax, c.gravity, c.dragRatio,
    c.forceThreshold, c.torqueThreshold, c.sharpness, c.conditionLimit], Scalar.isFinite x = true) :
    (¬c.thrustMin < 0 ∧ ¬c.thrustMax ≤ c.thrustMin ∧ ¬c.gravity ≤ 0 ∧ ¬c.dragRatio < 0 ∧
        ¬c.sharpness ≤ 0 ∧ ¬c.conditionLimit ≤ 1) ↔
      0 ≤ c.thrustMin ∧ c.thrustMin < c.thrustMax ∧ 0 < c.gravity ∧ 0 ≤ c.dragRatio ∧
        0 < c.sharpness ∧ 1 < c.conditionLimit := by
  have hzero : Scalar.isFinite (0 : Float) = true := by decide
  have hone : Scalar.isFinite (1 : Float) = true := by decide
  simp only [List.forall_mem_cons] at hfinite
  obtain ⟨hmin, hmax, hgravity, hratio, -, -, hsharpness, hlimit, -⟩ := hfinite
  rw [Scalar.not_lt_iff hmin hzero, Scalar.not_le_iff hmax hmin, Scalar.not_le_iff hgravity hzero,
    Scalar.not_lt_iff hratio hzero, Scalar.not_le_iff hsharpness hzero,
    Scalar.not_le_iff hlimit hone]

theorem validate_eq_ok_iff : c.validate = .ok () ↔ c.Admissible := by
  rw [validate_eq_ok_iff_tests, find?_scalars_eq_none_iff, DifferenceConfig.validate_eq_ok_iff]
  constructor
  · rintro ⟨hfinite, hmin, hmax, hgravity, hratio, hsharpness, hlimit, hdirections,
      ⟨q, hq⟩, hdifference⟩
    obtain ⟨hmin, hmax, hgravity, hratio, hsharpness, hlimit⟩ :=
      (orderTests_iff hfinite).mp ⟨hmin, hmax, hgravity, hratio, hsharpness, hlimit⟩
    exact ⟨hfinite, ⟨hmin, hmax⟩, hgravity, hratio, hsharpness, hlimit,
      validateDirections_eq_ok_iff_signs.mp hdirections, (orientation_eq_ok_iff.mp hq).1,
      hdifference⟩
  · intro h
    obtain ⟨hmin, hmax, hgravity, hratio, hsharpness, hlimit⟩ := (orderTests_iff h.finite).mpr
      ⟨h.thrusts.1, h.thrusts.2, h.gravity, h.dragRatio, h.sharpness, h.conditionLimit⟩
    exact ⟨h.finite, hmin, hmax, hgravity, hratio, hsharpness, hlimit,
      validateDirections_eq_ok_iff_signs.mpr h.directions,
      ⟨_, orientation_eq_ok_iff.mpr ⟨h.orientation, rfl⟩⟩, h.difference⟩

end Config

/-! ## Robots -/

theorem RotorLayout.sign_axisDirection (t : Tree Float) (i : Fin t.size) :
    axisDirection t i = 1 ∨ axisDirection t i = -1 := by
  unfold axisDirection
  split
  · split
    · exact .inr rfl
    · exact .inl rfl
  · exact .inl rfl

theorem RotorLayout.sign_directions {t : Tree Float} {c : Config Float} (hc : c.Admissible)
    {l : RotorLayout Float t.size} (h : ofConfig t c = .ok l) :
    (∀ d ∈ l.directions, d = 1 ∨ d = -1) ∧ l.dragRatio = c.dragRatio := by
  rw [ofConfig_eq, bind_eq_ok] at h
  obtain ⟨segments, -, h⟩ := h
  obtain ⟨directions, hdirections, rfl⟩ := map_eq_ok.mp h
  refine ⟨?_, rfl⟩
  unfold directionsOf at hdirections
  split at hdirections
  · cases hdirections
    exact List.forall_mem_map.mpr fun i _ => sign_axisDirection t i
  · rename_i hgiven
    split at hdirections
    · cases hdirections
      exact (hc.directions _ hgiven).1
    · cases hdirections

namespace Robot

/-- What the stages of a solution take from the robot that they solve for. -/
def fixedNumbers (r : Robot Float) : List Float :=
  [r.config.conditionLimit, r.range.min, r.range.max, r.range.sharpness, r.criteria.thrustMin,
    r.criteria.thrustMax, r.criteria.forceThreshold, r.criteria.torqueThreshold, r.config.gravity,
    r.rotors.dragRatio] ++ r.rotors.directions

structure Settled (r : Robot Float) : Prop where
  admissible : r.config.Admissible
  finite : ∀ x ∈ r.fixedNumbers, Scalar.isFinite x = true
  range : r.range.min < r.range.max
  directions : ∀ d ∈ r.rotors.directions, d = 1 ∨ d = -1
  orientation : r.config.orientation = .ok r.initialSetup.desired

theorem ofConfig_of_refused (t : Tree Float) {c : Config Float} {e : ConfigError Float}
    (h : c.validate = .error e) : ofConfig t c = .error (.config e) :=
  bind_eq_error.mpr (.inl (mapError_eq_error.mpr ⟨e, h, rfl⟩))

theorem settled_of_ofConfig {t : Tree Float} {c : Config Float} {r : Robot Float}
    (h : ofConfig t c = .ok r) : r.config = c ∧ r.Settled := by
  have hvalid : c.validate = .ok () := by
    cases hc : c.validate with
    | ok => rfl
    | error e =>
      rw [ofConfig_of_refused t hc] at h
      cases h
  obtain ⟨-, -, h⟩ := bind_eq_ok.mp h
  obtain ⟨baselink, -, h⟩ := bind_eq_ok.mp h
  obtain ⟨groups, -, h⟩ := bind_eq_ok.mp h
  obtain ⟨rotors, hrotors, h⟩ := bind_eq_ok.mp h
  cases h
  have hc := Config.validate_eq_ok_iff.mp hvalid
  obtain ⟨hsigns, hratio⟩ := RotorLayout.sign_directions hc hrotors
  have hfinite := hc.finite
  simp only [List.forall_mem_cons] at hfinite
  obtain ⟨hmin, hmax, hgravity, hdrag, hforce, htorque, hsharpness, hlimit, -⟩ := hfinite
  refine ⟨rfl, hc, ?_, hc.thrusts.2, hsigns,
    Config.orientation_eq_ok_iff.mpr ⟨hc.orientation, rfl⟩⟩
  refine List.forall_mem_append.mpr ⟨?_, fun d hd => ?_⟩
  · simp only [List.forall_mem_cons]
    exact ⟨hlimit, hmin, hmax, hsharpness, hmin, hmax, hforce, htorque, hgravity, hratio ▸ hdrag,
      nofun⟩
  · rcases hsigns d hd with rfl | rfl <;> decide

/-- The tests accept what is admissible and nothing else, whatever the numbers are, and only with
an admissible configuration is there a robot. -/
theorem validated_iff_admissible : (∀ c : Config Float, c.validate = .ok () ↔ c.Admissible) ∧
    ∀ (t : Tree Float) (c : Config Float),
      (∀ e, c.validate = .error e → ofConfig t c = .error (.config e)) ∧
      ∀ r, ofConfig t c = .ok r → r.config = c ∧ r.Settled :=
  ⟨fun _ => Config.validate_eq_ok_iff,
    fun t _ => ⟨fun _ => ofConfig_of_refused t, fun _ => settled_of_ofConfig⟩⟩

open RotorLayout (motors motorConfig)

/-- Two motors turn as they are told, and without a defined gravity there is no robot. -/
theorem validated_iff_admissible_motors :
    let given : Config Float :=
      { motorConfig "m1" with rotorCount := some 2, rotorDirections := some [-1, 1] }
    let undefined : Config Float := { given with gravity := 0.0 / 0.0 }
    ∃ t r e, Tree.ofRecords motors = .ok t ∧ ofConfig t given = .ok r ∧ r.config = given ∧
      r.Settled ∧ given.validate = .ok () ∧ undefined.validate = .error e ∧
      ofConfig t undefined = .error (.config e) ∧ ¬undefined.Admissible := by
  intro given undefined
  obtain ⟨haccepted, hrobots⟩ := validated_iff_admissible
  have hbuilt : (Tree.ofRecords motors >>= fun t => ofConfig t given).isOk = true := by
    decide +kernel
  have hrefused : undefined.validate.isOk = false := by
    decide +kernel
  cases hout : Tree.ofRecords motors >>= fun t => ofConfig t given with
  | error e =>
    rw [hout] at hbuilt
    cases hbuilt
  | ok r =>
    cases he : undefined.validate with
    | ok =>
      rw [he] at hrefused
      cases hrefused
    | error e =>
      obtain ⟨t, ht, hr⟩ := bind_eq_ok.mp hout
      obtain ⟨hconfig, hsettled⟩ := (hrobots t given).2 r hr
      refine ⟨t, r, e, ht, hr, hconfig, hsettled,
        (haccepted given).mpr (hconfig ▸ hsettled.admissible), rfl, (hrobots t undefined).1 e he,
        fun h => ?_⟩
      rw [(haccepted undefined).mpr h] at he
      cases he

end Robot

end Multirotor
