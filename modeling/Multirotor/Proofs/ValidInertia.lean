import Multirotor.Proofs.CentreOfGravity

/-!
# Valid inertias

A body can exist if its mass is not negative, and no turn about its centre of
gravity has negative energy (`Valid`). The sum of two bodies keeps only a tensor
about the origin, and what is left of it about the new centre of gravity is
both tensors with the parallel-axis terms of both levers (`aboutCog_add`). So
groups, loads and the whole robot are valid if segments and modules are
(`valid_aggregate`).
-/

namespace Multirotor

namespace Mat3

/-- Symmetric and positive semidefinite. -/
structure Semidefinite (a : Mat3 ℝ) : Prop where
  symmetric : a.transpose = a
  nonneg : ∀ v : Vec3 ℝ, 0 ≤ v.dot (a.apply v)

variable {a b : Mat3 ℝ}

theorem semidefinite_zero : Semidefinite 0 := by
  refine ⟨rfl, fun v => le_of_eq ?_⟩
  simp [apply_eq, Vec3.dot_eq]

theorem Semidefinite.add (ha : a.Semidefinite) (hb : b.Semidefinite) : (a + b).Semidefinite := by
  refine ⟨?_, fun v => ?_⟩
  · have hsum : (a + b).transpose = a.transpose + b.transpose := rfl
    rw [hsum, ha.symmetric, hb.symmetric]
  · rw [add_apply, Vec3.dot_add]
    exact add_nonneg (ha.nonneg v) (hb.nonneg v)

/-- The same tensor in other axes, if `r` is a rotation. -/
theorem Semidefinite.turned (h : a.Semidefinite) (r : Mat3 ℝ) :
    (r * a * r.transpose).Semidefinite := by
  refine ⟨?_, fun v => ?_⟩
  · rw [transpose_mul, transpose_mul, transpose_transpose, h.symmetric, Mat3.mul_assoc]
  · rw [mul_apply, mul_apply, Vec3.dot_comm, apply_dot, Vec3.dot_comm]
    exact h.nonneg (r.transpose.apply v)

end Mat3

namespace Inertia

open Mat3

theorem semidefinite_parallelAxis {m : ℝ} (hm : 0 ≤ m) (c : Vec3 ℝ) :
    (parallelAxis m c).Semidefinite := by
  refine ⟨?_, fun v => ?_⟩
  · ext <;> simp [parallelAxis, transpose_eq, identity_eq, outer_eq, mul_comm]
  · have hlever : v.dot (c.cross (v.cross c) * m : Vec3 ℝ) = (v.cross c).normSq * m := by
      rw [Vec3.dot_mul, ← Vec3.cross_dot, Vec3.normSq_eq]
    rw [parallelAxis_apply, hlever]
    exact mul_nonneg (Vec3.normSq_nonneg _) hm

/-! ## Operations -/

structure Valid (i : Inertia ℝ) : Prop where
  mass : 0 ≤ i.mass
  aboutCog : i.aboutCog.Semidefinite

variable {a b i : Inertia ℝ} {m : ℝ} {tensor : Mat3 ℝ}

theorem valid_ofCog (hm : 0 ≤ m) (c : Vec3 ℝ) (h : tensor.Semidefinite) :
    (ofCog m c tensor).Valid := by
  refine ⟨hm, ?_⟩
  rw [aboutCog_ofCog]
  exact h

theorem valid_zero : Valid 0 := by
  refine ⟨le_rfl, ?_⟩
  have h : (0 : Inertia ℝ).aboutCog = 0 - parallelAxis 0 0 := rfl
  rw [h, parallelAxis_zero, sub_zero]
  exact semidefinite_zero

theorem valid_pointMass (hm : 0 ≤ m) (p : Vec3 ℝ) : (pointMass m p).Valid :=
  valid_ofCog hm p semidefinite_zero

theorem Valid.transformed (h : i.Valid) (frame : Frame ℝ) : (i.transformed frame).Valid :=
  valid_ofCog h.mass _ (h.aboutCog.turned frame.rotation.toMatrix)

theorem valid_ofInertialFrame (hm : 0 ≤ m) (frame : Frame ℝ) (h : tensor.Semidefinite) :
    (ofInertialFrame m frame tensor).Valid := (valid_ofCog hm 0 h).transformed frame

theorem Valid.aboutPoint (h : i.Valid) (p : Vec3 ℝ) : (i.aboutPoint p).Valid :=
  valid_ofCog h.mass _ h.aboutCog

/-- Both levers end at the centre of gravity of the sum, wherever it is put. -/
theorem aboutCog_add (ha : 0 ≤ a.mass) (hb : 0 ≤ b.mass) :
    (a + b).aboutCog = a.aboutCog + parallelAxis a.mass (a.cog - (a + b).cog) +
      (b.aboutCog + parallelAxis b.mass (b.cog - (a + b).cog)) := by
  rw [← about_cog_moments (a + b), moments_add ha hb, map_add, about_moments, about_moments]

theorem Valid.add (ha : a.Valid) (hb : b.Valid) : (a + b).Valid := by
  refine ⟨add_nonneg ha.mass hb.mass, ?_⟩
  rw [aboutCog_add ha.mass hb.mass]
  exact (ha.aboutCog.add (semidefinite_parallelAxis ha.mass _)).add
    (hb.aboutCog.add (semidefinite_parallelAxis hb.mass _))

/-- What bodies are made by, and changed by, gives valid ones for valid arguments. -/
structure ValidOperations : Prop where
  preserved : Preserved Valid
  pointMass : ∀ m p, 0 ≤ m → (pointMass m p).Valid
  ofCog : ∀ m c tensor, 0 ≤ m → tensor.Semidefinite → (ofCog m c tensor).Valid
  ofInertialFrame : ∀ m frame tensor, 0 ≤ m → tensor.Semidefinite →
    (ofInertialFrame m frame tensor).Valid
  aboutPoint : ∀ i, Valid i → ∀ p, (i.aboutPoint p).Valid

theorem validOperations : ValidOperations where
  preserved := ⟨valid_zero, Valid.add, Valid.transformed⟩
  pointMass _ p hm := valid_pointMass hm p
  ofCog _ c _ hm h := valid_ofCog hm c h
  ofInertialFrame _ frame _ hm h := valid_ofInertialFrame hm frame h
  aboutPoint _ h p := h.aboutPoint p

/-! ## Loads and their total -/

namespace Preserved

variable {α : Type} [Scalar α] {P : Inertia α → Prop} (hP : Preserved P) {n : Nat}
  {groups : List (InertiaGroup α n)} {loads loads' : List (Inertia α)}
include hP

theorem load {m : ExtraModule α} (hl : ∀ i ∈ loads, P i) (hm : P m.inertia)
    (h : InertiaGroup.load groups loads m = .ok loads') : ∀ i ∈ loads', P i := by
  unfold InertiaGroup.load at h
  split at h
  · cases h
    intro i hi
    obtain ⟨k, hk, rfl⟩ := List.getElem_of_mem hi
    rw [List.getElem_modify]
    split
    · exact hP.add (hl _ (List.getElem_mem _)) (hP.transformed hm _)
    · exact hl _ (List.getElem_mem _)
  · cases h

theorem foldlM_load {ms : List (ExtraModule α)} (hl : ∀ i ∈ loads, P i)
    (hm : ∀ m ∈ ms, P m.inertia)
    (h : ms.foldlM (InertiaGroup.load groups) loads = .ok loads') : ∀ i ∈ loads', P i := by
  induction ms generalizing loads with
  | nil =>
    cases h
    exact hl
  | cons m ms ih =>
    obtain ⟨hfirst, hm⟩ := List.forall_mem_cons.mp hm
    obtain ⟨next, hnext, h⟩ := bind_eq_ok.mp h
    exact ih (hP.load hl hfirst hnext) hm h

theorem loaded {payload : Payload α} (hg : ∀ g ∈ groups, P g.inertia)
    (hm : ∀ m ∈ payload.modules, P m.inertia) (h : InertiaGroup.loaded groups payload = .ok loads) :
    ∀ i ∈ loads, P i :=
  hP.foldlM_load (List.forall_mem_map.mpr hg) hm h

theorem total (hl : ∀ i ∈ loads, P i) (frames : Placement α n) :
    P (InertiaGroup.total groups loads frames) :=
  hP.foldl hP.zero fun x hx => hP.transformed (hl x.2 (List.of_mem_zip hx).2) _

end Preserved

end Inertia

/-! ## The whole robot -/

namespace InertiaGroup

open Inertia

theorem semidefinite_ofBody {body : Inertia ℝ} (h : body.Valid) {baselink : Frame ℝ}
    {desired : Quat ℝ} {cog : CentreOfGravity ℝ}
    (hc : CentreOfGravity.ofBody body baselink desired = .ok cog) : cog.inertia.Semidefinite := by
  obtain ⟨-, -, -, hinertia⟩ := CentreOfGravity.ofBody_eq_ok hc
  rw [hinertia]
  exact h.aboutCog.turned cog.frame.rotation.toMatrix.transpose

/-- Whatever is made of valid inertias is valid, up to the inertia of the whole robot. -/
theorem valid_aggregate : ValidOperations ∧
    ∀ {t : Tree ℝ} {groups : List (InertiaGroup ℝ t.size)} {payload : Payload ℝ}
      {frames : Placement ℝ t.size} {baselink : Fin t.size} {desired : Quat ℝ}
      {cog : CentreOfGravity ℝ} {loads : List (Inertia ℝ)}, t.groups = .ok groups →
      (∀ i, (t.segment i).inertia.Valid) → (∀ m ∈ payload.modules, m.inertia.Valid) →
      aggregate groups payload frames baselink desired = .ok (cog, loads) →
        (∀ g ∈ groups, g.inertia.Valid) ∧ (∀ i ∈ loads, i.Valid) ∧ cog.inertia.Semidefinite := by
  refine ⟨validOperations, ?_⟩
  intro t groups payload frames baselink desired cog loads hg hs hm h
  obtain ⟨loads', hl, h⟩ := bind_eq_ok.mp h
  obtain ⟨cog', hc, h⟩ := bind_eq_ok.mp h
  cases h
  have hvalid := validOperations.preserved
  have hgroups := hvalid.groups hs hg
  have hloads := hvalid.loaded hgroups hm hl
  exact ⟨hgroups, hloads, semidefinite_ofBody (hvalid.total hloads frames) hc⟩

theorem valid_segments_crane (i : Fin craneTree.size) : (craneTree.segment i).inertia.Valid := by
  obtain ⟨r, hmem, -, -, hinertia⟩ := Tree.exists_record ofRecords_crane i
  rw [hinertia]
  simp only [crane, List.mem_cons, List.not_mem_nil, or_false] at hmem
  rcases hmem with rfl | rfl | rfl
  · exact valid_pointMass zero_le_one _
  · exact valid_pointMass zero_le_one _
  · exact valid_pointMass le_rfl _

theorem valid_aggregate_crane : ∃ frames groups cog loads, craneTree.groups = .ok groups ∧
    aggregate groups ⟨[lamp]⟩ frames craneTree.root Quat.identity = .ok (cog, loads) ∧
    (∀ i, (craneTree.segment i).inertia.Valid) ∧ (∀ m ∈ [lamp], m.inertia.Valid) ∧
    (∀ g ∈ groups, g.inertia.Valid) ∧ (∀ i ∈ loads, i.Valid) ∧ cog.inertia.Semidefinite := by
  obtain ⟨frames, hq⟩ := place_crane 1
  obtain ⟨groups, hg, harm⟩ := groups_crane
  have hpos : 0 < ((craneTree.bodies frames ⟨[lamp]⟩).map fun b => b.inertia.mass).sum := by
    rw [mass_bodies_crane]
    norm_num
  obtain ⟨cog, loads, h⟩ := aggregate_isOk (Tree.wellFormed_of_ofRecords ofRecords_crane)
    rigid_crane mass_crane hq hg (filled_lamp harm) hpos craneTree.root Quat.identity
  have hlamp : ∀ m ∈ [lamp], m.inertia.Valid := by
    intro m hm
    rw [List.mem_singleton.mp hm]
    exact valid_pointMass zero_le_one _
  exact ⟨frames, groups, cog, loads, hg, h, valid_segments_crane, hlamp,
    valid_aggregate.2 hg valid_segments_crane hlamp h⟩

end InertiaGroup

end Multirotor
