import Multirotor.Proofs.Sensitivity.RigidMotion

/-!
# Locked inertia

While the root turns, no joint moves, and the angular momentum is that of one
rigid body. The sum over the groups that the analytic columns are made of is
an inertia times the rate (`momentumRate_rigid`), and this inertia is the one
published with the centre of gravity (`lockedInertia_eq`): about the mean of
the groups only the levers from it count.
-/

namespace Multirotor

/-! ## Levers from the mean -/

/-- Levers from the mean add up to nothing, so a velocity common to all adds no momentum. -/
theorem Vec3.sum_lever_cross {ι : Type*} {l : List ι} {x : ι → Vec3 ℝ} {m : ι → ℝ} {c : Vec3 ℝ}
    (hc : (c * (l.map m).sum : Vec3 ℝ) = (l.map fun i => (x i * m i : Vec3 ℝ)).sum)
    (v : ι → Vec3 ℝ) (u : Vec3 ℝ) :
    (l.map fun i => ((x i - c).cross (v i + u) * m i : Vec3 ℝ)).sum =
      (l.map fun i => ((x i - c).cross (v i) * m i : Vec3 ℝ)).sum := by
  have hlever : (l.map fun i => ((x i - c) * m i : Vec3 ℝ)).sum = 0 := by
    have hsplit : ∀ i, (x i * m i : Vec3 ℝ) = (x i - c) * m i + c * m i := fun i => by
      rw [← Vec3.add_mul_scale, sub_add_cancel]
    simp only [hsplit, List.sum_map_add, Vec3.mul_sum] at hc
    exact right_eq_add.mp hc
  have hsplit : ∀ i, ((x i - c).cross (v i + u) * m i : Vec3 ℝ) =
      (x i - c).cross (v i) * m i + ((x i - c) * m i : Vec3 ℝ).cross u := fun i => by
    ext <;> simp <;> ring
  simp only [hsplit, List.sum_map_add, Vec3.sum_cross]
  rw [hlever, Vec3.zero_cross, add_zero]

/-! ## The inertia of the groups -/

namespace Posture

variable {n : Nat} (p : Posture n) (groups : List (InertiaGroup ℝ n))

/-- The inertia of a loaded group about the centre of gravity, in the level frame. -/
noncomputable def groupInertia (b : InertiaGroup ℝ n × Inertia ℝ) : Mat3 ℝ :=
  p.attitude b.1.base * b.2.aboutCog * (p.attitude b.1.base).transpose +
    Inertia.parallelAxis b.2.mass (p.point b.1.base b.2.cog - p.cog.levelPosition)

/-- The inertia of all groups about the centre of gravity, as if no joint could move. -/
noncomputable def lockedInertia : Mat3 ℝ := ((groups.zip p.loaded).map p.groupInertia).sum

variable {p groups}

/-- A group in the axes at the centre of gravity, from one in those of the root. -/
theorem Sound.groupInertia_eq (hp : p.Sound groups) (b : InertiaGroup ℝ n × Inertia ℝ) :
    p.groupInertia b =
      p.cog.level.toMatrix * (⟨b.2, p.frames.get b.1.base⟩ : Body).about p.cog.position *
        p.cog.level.toMatrix.transpose := by
  have hlever : p.point b.1.base b.2.cog - p.cog.levelPosition = p.cog.level.toMatrix.apply
      ((p.frames.get b.1.base).point b.2.cog - p.cog.position) := by
    rw [point, CentreOfGravity.levelPosition, ← Quat.rotate_sub, hp.level.rotate_eq]
  rw [groupInertia, hlever, ← Inertia.turn_parallelAxis _ _ hp.level.orthogonal, attitude,
    Quat.toMatrix_mul, Mat3.transpose_mul, Body.about, Body.centre, Mat3.mul_add, Mat3.add_mul]
  simp only [Mat3.mul_assoc]

end Posture

namespace Robot

variable {r : Robot ℝ} {setup : Setup ℝ} {q : Coordinates ℝ} {p : Posture r.tree.size}

/-- The aggregate of the groups and their locked inertia are one matrix. -/
theorem Assembled.lockedInertia_eq (hr : r.Assembled) (ha : r.Admits setup)
    (h : r.posture setup q = .ok p) : p.lockedInertia r.groups = p.cog.inertia := by
  have hp := hr.sound ha h
  obtain ⟨hq, hl, hc⟩ := posture_eq_ok.mp h
  obtain ⟨hfit, -⟩ := InertiaGroup.fits_loaded hr.wellFormed hr.rigid hr.mass hq hr.groups
    ha.payload hl
  obtain ⟨-, hposition, -, hinertia⟩ := CentreOfGravity.ofBody_eq_ok hc
  set total := InertiaGroup.total r.groups p.loaded p.frames with htotal
  have hmoments : total.moments = ((r.groups.zip p.loaded).map fun b =>
      (⟨b.2, p.frames.get b.1.base⟩ : Body).moments).sum :=
    InertiaGroup.moments_total hp.rigid hfit.mass
  have habout : total.aboutCog = ((r.groups.zip p.loaded).map fun b =>
      (⟨b.2, p.frames.get b.1.base⟩ : Body).about p.cog.position).sum := by
    rw [← Inertia.about_cog_moments, hmoments, map_list_sum, List.map_map, hposition]
    exact congrArg List.sum (List.map_congr_left fun b _ => Body.about_moments _ (hp.rigid _) _)
  have hlevel : p.cog.level.toMatrix = p.cog.frame.rotation.toMatrix.transpose :=
    Quat.toMatrix_inverse _
  calc p.lockedInertia r.groups
      = ((r.groups.zip p.loaded).map fun b => p.cog.level.toMatrix *
          (⟨b.2, p.frames.get b.1.base⟩ : Body).about p.cog.position *
            p.cog.level.toMatrix.transpose).sum :=
        congrArg List.sum (List.map_congr_left fun b _ => hp.groupInertia_eq b)
    _ = p.cog.level.toMatrix * total.aboutCog * p.cog.level.toMatrix.transpose := by
        rw [habout, Mat3.mul_list_sum_mul, List.map_map]
        rfl
    _ = p.cog.inertia := by
        rw [hinertia, hlevel, Mat3.transpose_transpose]

/-! ## The columns of the momentum -/

variable {s : HoverState ℝ r.tree.size}

theorem momentumRate_rigid (hp : s.posture.Sound r.groups) {m : Motion} {v w : Vec3 ℝ}
    (h : (r.velocities s).MovesRigidly m v w) :
    r.momentumRate s m = (s.posture.lockedInertia r.groups).apply w := by
  have hcentre : (s.cog.levelPosition * ((r.loadedGroups s).map fun b => b.2.mass).sum : Vec3 ℝ) =
      ((r.loadedGroups s).map fun b =>
        (s.posture.point b.1.base b.2.cog * b.2.mass : Vec3 ℝ)).sum := by
    have hmass : ((r.loadedGroups s).map fun b => b.2.mass).sum = s.cog.mass := hp.mass.symm
    rw [hmass]
    exact hp.centre
  -- The lever of a group starts at the centre of gravity, and what its velocity has in common with
  -- that of the others is the velocity there.
  have hvelocity : ∀ b : InertiaGroup ℝ r.tree.size × Inertia ℝ,
      (r.velocities s).point m b.1.base (s.posture.point b.1.base b.2.cog) =
        w.cross (s.posture.point b.1.base b.2.cog - s.cog.levelPosition) +
          (v + w.cross s.cog.levelPosition) := fun b => by
    refine (h.point _ _).trans ?_
    rw [Vec3.cross_sub]
    abel
  have hangular : ∀ b : InertiaGroup ℝ r.tree.size × Inertia ℝ,
      (r.velocities s).angular m b.1.base = w := fun b => h.angular _
  rw [momentumRate_eq, Vec3.sum_real]
  simp only [hvelocity, hangular]
  rw [List.sum_map_add, Vec3.sum_lever_cross hcentre, ← List.sum_map_add, Posture.lockedInertia,
    Mat3.list_sum_apply, List.map_map]
  refine congrArg List.sum (List.map_congr_left fun b _ => ?_)
  rw [Function.comp_apply, Posture.groupInertia, Mat3.add_apply, Inertia.parallelAxis_apply,
    add_comm]
  rfl

/-- The root-rotation columns of the momentum are the published inertia times those of the rotation
that takes the axes at the centre of gravity into the level frame. -/
theorem momentum_turn_eq_inertia [SingularValues ℝ] (hr : r.Assembled) (ha : r.Admits setup)
    (h : r.solve setup q = .ok s) :
    ∃ sens, r.analytic s = .ok sens ∧ sens.momentum.rows = 3 ∧
      ∀ k : Fin 3, sens.momentum.columns[(Motion.turn k).column]? =
        some ((s.cog.inertia * s.cog.level.toMatrix).col k).toList := by
  have hs := hovers_of_solve h
  have hp := hr.sound ha hs.posture
  have hinertia : s.posture.lockedInertia r.groups = s.cog.inertia :=
    hr.lockedInertia_eq ha hs.posture
  obtain ⟨e, -, hsens, -⟩ := analytic_isOk hs
  refine ⟨_, hsens, rfl, fun k => ?_⟩
  have hcolumn := Tree.getElem?_columns (r.tree.turn_mem_motions k) (r.rates s e)
    (·.momentum.toList)
  refine hcolumn.trans (congrArg (fun v : Vec3 ℝ => some v.toList) ?_)
  rw [Mat3.col_mul, ← hinertia]
  exact momentumRate_rigid hp (VelocityField.rigid_turn k)

theorem momentum_turn_eq_inertia_hexarotor :
    ∃ s, @solve ℝ _ hexarotorValues hexarotor bare ⟨[0]⟩ = .ok s ∧
      ∃ sens, @analytic ℝ _ hexarotor s hexarotorValues = .ok sens ∧ sens.momentum.rows = 3 ∧
        ∀ k : Fin 3, sens.momentum.columns[(Motion.turn k).column]? =
          some ((s.cog.inertia * s.cog.level.toMatrix).col k).toList := by
  obtain ⟨s, hs⟩ := solve_hexarotor
  exact ⟨s, hs,
    @momentum_turn_eq_inertia _ _ _ _ hexarotorValues assembled_hexarotor (admits_bare _) hs⟩

end Robot

end Multirotor
