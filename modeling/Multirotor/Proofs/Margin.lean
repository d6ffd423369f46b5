import Multirotor.Proofs.Zonotope

/-!
# The exact margin

For generators that are parallel exactly or clearly not, the exact margin is
the distance from the required vector to the boundary of the achievable set
(`le_exactMargin_iff`).
-/

namespace Multirotor

section Faces

variable {generators : List (Vec3 ℝ)} {pairs : List (Nat × Nat)} {i j : Nat} {a b c : Vec3 ℝ}

/-- Generators that are not parallel are so by more than the tolerance. -/
def Separated (generators : List (Vec3 ℝ)) : Prop :=
  ∀ a ∈ generators, ∀ b ∈ generators, a ≠ 0 → b ≠ 0 →
    a.cross b = 0 ∨ parallelTolerance < (a.direction.cross b.direction).norm

theorem parallelTolerance_pos : (0 : ℝ) < parallelTolerance := by
  norm_num [parallelTolerance]

theorem degenerateTolerance_pos : (0 : ℝ) < degenerateTolerance := by
  norm_num [degenerateTolerance]

/-! ## Volumes -/

theorem foldl_larger_lt {c : Vec3 ℝ} {ws : List (Vec3 ℝ)} {bound volume : ℝ}
    (h : ∀ w ∈ ws, |c.dot w| < bound) (hv : volume < bound) :
    ws.foldl (fun largest w => Scalar.larger largest (Scalar.abs (c.dot w))) volume < bound := by
  induction ws generalizing volume with
  | nil => exact hv
  | cons w ws ih =>
    rw [List.foldl_cons, Scalar.larger_real, Scalar.abs_real]
    exact ih (fun w hw => h w (List.mem_cons_of_mem _ hw)) (max_lt hv (h w List.mem_cons_self))

theorem greatestVolume_lt {u : Vec3 ℝ} {vs : List (Vec3 ℝ)} {bound volume : ℝ}
    (h : ∀ v ∈ vs, ∀ w ∈ vs, |(u.cross v).dot w| < bound) (hv : volume < bound) :
    greatestVolume u vs volume < bound := by
  induction vs generalizing volume with
  | nil => exact hv
  | cons v vs ih =>
    have hm : ∀ w ∈ vs, w ∈ v :: vs := fun _ => List.mem_cons_of_mem _
    exact ih (fun v hv w hw => h v (hm v hv) w (hm w hw))
      (foldl_larger_lt (fun w hw => h v List.mem_cons_self w (hm w hw)) hv)

theorem spannedVolume_lt {us : List (Vec3 ℝ)} {bound volume : ℝ}
    (h : ∀ u ∈ us, ∀ v ∈ us, ∀ w ∈ us, |(u.cross v).dot w| < bound) (hv : volume < bound) :
    spannedVolume us volume < bound := by
  induction us generalizing volume with
  | nil => exact hv
  | cons u us ih =>
    have hm : ∀ v ∈ us, v ∈ u :: us := fun _ => List.mem_cons_of_mem _
    exact ih (fun u hu v hv w hw => h u (hm u hu) v (hm v hv) w (hm w hw))
      (greatestVolume_lt (fun v hv w hw => h u List.mem_cons_self v (hm v hv) w (hm w hw)) hv)

theorem le_foldl_larger {c w : Vec3 ℝ} {ws : List (Vec3 ℝ)} {volume : ℝ} :
    volume ≤ ws.foldl (fun largest w => Scalar.larger largest (Scalar.abs (c.dot w))) volume ∧
      (w ∈ ws → |c.dot w| ≤
        ws.foldl (fun largest w => Scalar.larger largest (Scalar.abs (c.dot w))) volume) := by
  induction ws generalizing volume with
  | nil => simp
  | cons x ws ih =>
    rw [List.foldl_cons, Scalar.larger_real, Scalar.abs_real]
    refine ⟨le_sup_left.trans ih.1, fun hw => ?_⟩
    rcases List.mem_cons.mp hw with rfl | hw
    · exact le_sup_right.trans ih.1
    · exact ih.2 hw

theorem le_greatestVolume {u v w : Vec3 ℝ} {vs : List (Vec3 ℝ)} {volume : ℝ} :
    volume ≤ greatestVolume u vs volume ∧
      ([v, w].Sublist vs → |(u.cross v).dot w| ≤ greatestVolume u vs volume) := by
  induction vs generalizing volume with
  | nil => exact ⟨le_rfl, fun h => by cases h⟩
  | cons x vs ih =>
    refine ⟨(le_foldl_larger (w := w)).1.trans ih.1, fun h => ?_⟩
    cases h with
    | cons _ h => exact ih.2 h
    | cons_cons _ h => exact (le_foldl_larger.2 (List.singleton_sublist.mp h)).trans ih.1

/-- No three vectors span more. -/
theorem le_spannedVolume {u v w : Vec3 ℝ} {us : List (Vec3 ℝ)} {volume : ℝ}
    (h : [u, v, w].Sublist us) : |(u.cross v).dot w| ≤ spannedVolume us volume := by
  have hmono : ∀ {us : List (Vec3 ℝ)} {volume : ℝ}, volume ≤ spannedVolume us volume := by
    intro us volume
    induction us generalizing volume with
    | nil => exact le_rfl
    | cons x us ih => exact (le_greatestVolume (v := v) (w := w)).1.trans ih
  induction us generalizing volume with
  | nil => cases h
  | cons x us ih =>
    cases h with
    | cons _ h => exact ih h
    | cons_cons _ h => exact (le_greatestVolume.2 h).trans hmono

theorem direction_cross_direction (a b : Vec3 ℝ) :
    a.direction.cross b.direction = a.cross b * (a.norm⁻¹ * b.norm⁻¹) := by
  rw [Vec3.direction_eq, Vec3.direction_eq, Vec3.cross_mul_mul]

theorem exists_volume (h : facePairs? generators = some pairs) :
    ∃ a ∈ generators, ∃ b ∈ generators, ∃ c ∈ generators,
      degenerateTolerance ≤ |(a.direction.cross b.direction).dot c.direction| := by
  by_contra hnone
  push Not at hnone
  have hflat : spannedVolume (generators.map Vec3.direction) (0 : ℝ) < degenerateTolerance := by
    refine spannedVolume_lt (fun u hu v hv w hw => ?_) degenerateTolerance_pos
    obtain ⟨a, ha, rfl⟩ := List.mem_map.mp hu
    obtain ⟨b, hb, rfl⟩ := List.mem_map.mp hv
    obtain ⟨c, hc, rfl⟩ := List.mem_map.mp hw
    exact hnone a ha b hb c hc
  simp only [facePairs?, if_pos hflat] at h
  cases h

/-- Three generators that span more than the tolerance are enough. -/
theorem exists_facePairs (hsub : [a, b, c].Sublist generators)
    (hvolume : degenerateTolerance ≤ |(a.direction.cross b.direction).dot c.direction|) :
    ∃ pairs, facePairs? generators = some pairs := by
  have hspans : ¬spannedVolume (generators.map Vec3.direction) (0 : ℝ) < degenerateTolerance :=
    not_lt.mpr (hvolume.trans (le_spannedVolume (hsub.map Vec3.direction)))
  exact ⟨_, if_neg hspans⟩

theorem volume_ne_zero
    (h : degenerateTolerance ≤ |(a.direction.cross b.direction).dot c.direction|) :
    (a.cross b).dot c ≠ 0 := by
  intro hflat
  rw [direction_cross_direction, Vec3.direction_eq c, Vec3.dot_mul, Vec3.mul_dot, hflat, zero_mul,
    zero_mul, abs_zero] at h
  exact absurd h (not_le.mpr degenerateTolerance_pos)

/-- Of three directions that span space, the first is not parallel to both others. -/
theorem parallelTolerance_lt_of_volume
    (h : degenerateTolerance ≤ |(a.direction.cross b.direction).dot c.direction|) :
    parallelTolerance < (a.direction.cross b.direction).norm ∨
      parallelTolerance < (a.direction.cross c.direction).norm := by
  have ha : a ≠ 0 := by
    rintro rfl
    exact volume_ne_zero h (by rw [Vec3.zero_cross, Vec3.zero_dot])
  by_contra hparallel
  push Not at hparallel
  have hle : |(a.direction.cross b.direction).dot c.direction| ≤
      parallelTolerance * parallelTolerance := by
    calc |(a.direction.cross b.direction).dot c.direction|
        = ((a.direction.cross b.direction).cross (a.direction.cross c.direction)).norm := by
          rw [Vec3.cross_cross_cross, Vec3.norm_mul, Vec3.norm_direction ha, one_mul]
      _ ≤ (a.direction.cross b.direction).norm * (a.direction.cross c.direction).norm :=
          Vec3.norm_cross_le _ _
      _ ≤ parallelTolerance * parallelTolerance :=
          mul_le_mul hparallel.1 hparallel.2 (Vec3.norm_nonneg _) parallelTolerance_pos.le
  have hsmall : (parallelTolerance : ℝ) * parallelTolerance < degenerateTolerance := by
    norm_num [parallelTolerance, degenerateTolerance]
  linarith

theorem spans_of_facePairs? (h : facePairs? generators = some pairs) :
    ThrustRange.Spans generators.get := by
  obtain ⟨a, ha, b, hb, c, hc, hlarge⟩ := exists_volume h
  intro u hu
  have horth : ∀ v ∈ generators, v.dot u = 0 := fun v hv => by
    obtain ⟨k, rfl⟩ := List.get_of_mem hv
    rw [Vec3.dot_comm, hu k]
  exact Vec3.eq_zero_of_triple (volume_ne_zero hlarge) (horth a ha) (horth b hb) (horth c hc)

/-! ## Faces -/

theorem mem_facePairs? (h : facePairs? generators = some pairs) :
    (i, j) ∈ pairs ↔ ∃ (hi : i < generators.length) (hj : j < generators.length), i ≠ j ∧
      parallelTolerance < (generators[i].direction.cross generators[j].direction).norm := by
  simp only [facePairs?] at h
  split at h
  · cases h
  cases h
  simp only [List.mem_flatMap, List.mem_map, List.mem_filter, Prod.exists, Prod.mk.injEq,
    List.mem_zipIdx_iff_getElem?, List.getElem?_map, Option.map_eq_some_iff,
    List.getElem?_eq_some_iff, Bool.and_eq_true, bne_iff_ne, decide_eq_true_eq]
  constructor
  · rintro ⟨u, i, ⟨_, ⟨hi, rfl⟩, hu⟩, v, j, ⟨⟨_, ⟨hj, rfl⟩, hv⟩, hne, hlong⟩, rfl, rfl⟩
    rw [← hu, ← hv] at hlong
    exact ⟨hi, hj, hne, hlong⟩
  · rintro ⟨hi, hj, hne, hlong⟩
    exact ⟨_, i, ⟨_, ⟨hi, rfl⟩, rfl⟩, _, j, ⟨⟨_, ⟨hj, rfl⟩, rfl⟩, hne, hlong⟩, rfl, rfl⟩

theorem cross_ne_zero_of_mem (h : facePairs? generators = some pairs) (hmem : (i, j) ∈ pairs) :
    (generator generators i).cross (generator generators j) ≠ 0 := by
  obtain ⟨hi, hj, -, hlong⟩ := (mem_facePairs? h).mp hmem
  rw [generator, generator, List.getD_eq_getElem _ _ hi, List.getD_eq_getElem _ _ hj]
  intro hc
  rw [direction_cross_direction, hc, Vec3.norm_mul, Vec3.norm_zero, zero_mul] at hlong
  exact absurd hlong (not_lt.mpr parallelTolerance_pos.le)

theorem Separated.long (hsep : Separated generators) (ha : a ∈ generators) (hb : b ∈ generators)
    (hc : a.cross b ≠ 0) : parallelTolerance < (a.direction.cross b.direction).norm := by
  refine (hsep a ha b hb ?_ ?_).resolve_left hc
  · rintro rfl
    exact hc (Vec3.zero_cross b)
  · rintro rfl
    exact hc (Vec3.cross_zero a)

theorem mem_of_cross_ne_zero (hsep : Separated generators)
    (h : facePairs? generators = some pairs) (hi : i < generators.length)
    (hj : j < generators.length) (hc : generators[i].cross generators[j] ≠ 0) : (i, j) ∈ pairs := by
  refine (mem_facePairs? h).mpr ⟨hi, hj, ?_, ?_⟩
  · rintro rfl
    exact hc (Vec3.cross_self _)
  · exact hsep.long (List.getElem_mem hi) (List.getElem_mem hj) hc

theorem exists_pair (h : facePairs? generators = some pairs) (ha : a ∈ generators)
    (hb : b ∈ generators) (hlong : parallelTolerance < (a.direction.cross b.direction).norm) :
    ∃ pair ∈ pairs, generator generators pair.1 = a ∧ generator generators pair.2 = b := by
  obtain ⟨i, hi, rfl⟩ := List.getElem_of_mem ha
  obtain ⟨j, hj, rfl⟩ := List.getElem_of_mem hb
  refine ⟨(i, j), (mem_facePairs? h).mpr ⟨hi, hj, ?_, hlong⟩, List.getD_eq_getElem _ _ hi,
    List.getD_eq_getElem _ _ hj⟩
  rintro rfl
  rw [Vec3.cross_self, Vec3.norm_zero] at hlong
  exact absurd hlong (not_lt.mpr parallelTolerance_pos.le)

theorem pairs_ne_nil (h : facePairs? generators = some pairs) : pairs ≠ [] := by
  obtain ⟨a, ha, b, hb, c, hc, hvolume⟩ := exists_volume h
  rcases parallelTolerance_lt_of_volume hvolume with hlong | hlong
  · obtain ⟨pair, hp, -⟩ := exists_pair h ha hb hlong
    exact List.ne_nil_of_mem hp
  · obtain ⟨pair, hp, -⟩ := exists_pair h ha hc hlong
    exact List.ne_nil_of_mem hp

theorem sum_map_filter {β : Type} {f : β → ℝ} {keep : β → Bool} {l : List β}
    (h : ∀ x ∈ l, keep x = false → f x = 0) : ((l.filter keep).map f).sum = (l.map f).sum := by
  induction l with
  | nil => rfl
  | cons x l ih =>
    have hl := ih fun y hy => h y (List.mem_cons_of_mem _ hy)
    cases hx : keep x with
    | true => simp [hx, hl]
    | false => simp [hx, hl, h x List.mem_cons_self hx]

/-- What the two generators of a face do not add to is a sum over all of them. -/
theorem sum_offFace {f : Vec3 ℝ → ℝ} {pair : Nat × Nat}
    (h₁ : f (generator generators pair.1) = 0) (h₂ : f (generator generators pair.2) = 0) :
    ((offFace generators pair).map f).sum = ∑ k, f (generators.get k) := by
  have hfst : (offFace generators pair).map f = (generators.zipIdx.filter fun (_, k) =>
      k != pair.1 && k != pair.2).map (f ∘ Prod.fst) := by
    rw [offFace, List.map_map]
  have hget : ∀ x ∈ generators.zipIdx, x.1 = generator generators x.2 := fun x hx => by
    rw [generator, List.getD_eq_getElem?_getD, List.mem_zipIdx_iff_getElem?.mp hx, Option.getD_some]
  rw [hfst, sum_map_filter fun x hx hk => ?_, ← List.map_map, List.zipIdx_map_fst, ← List.sum_ofFn]
  · congr 1
    exact (List.ofFn_getElem_eq_map _ _).symm
  · rw [Bool.and_eq_false_iff, bne_eq_false_iff_eq, bne_eq_false_iff_eq] at hk
    rcases hk with hk | hk
    · rw [Function.comp_apply, hget x hx, hk, h₁]
    · rw [Function.comp_apply, hget x hx, hk, h₂]

end Faces

namespace ThrustRange

variable {r : ThrustRange ℝ} {generators : List (Vec3 ℝ)} {pairs : List (Nat × Nat)}

theorem faceDistance_eq (w : Vec3 ℝ) (pair : Nat × Nat) :
    r.faceDistance .exact generators w pair =
      r.excess generators.get w
        ((generator generators pair.1).cross (generator generators pair.2)).normalize := by
  simp only [faceDistance, Scalar.sum_real, excess]
  congr 1
  refine sum_offFace (f := fun g => r.reach (Vec3.dot _ g)) ?_ ?_
  · rw [Vec3.normalize_eq, Vec3.mul_dot, Vec3.dot_comm, Vec3.dot_cross_left, zero_mul, reach_zero]
  · rw [Vec3.normalize_eq, Vec3.mul_dot, Vec3.dot_comm, Vec3.dot_cross_right, zero_mul, reach_zero]

theorem margins_of_some (h : facePairs? generators = some pairs) (w : Vec3 ℝ) :
    r.margins generators w = ⟨pairs, pairs.map (r.faceDistance .exact generators w),
      pairs.map (r.faceDistance .smooth generators w),
      Scalar.least (pairs.map (r.faceDistance .exact generators w)),
      Scalar.least (pairs.map (r.faceDistance .smooth generators w)), false⟩ := by
  simp only [margins, faceDistances, h]

theorem margins_of_none (h : facePairs? generators = none) (w : Vec3 ℝ) :
    r.margins generators w = ⟨[], [], [], 0, 0, true⟩ := by
  simp only [margins, h]

theorem le_exactMargin_iff_excess (h : facePairs? generators = some pairs) (w : Vec3 ℝ) (distance : ℝ) :
    distance ≤ (r.margins generators w).exactMargin ↔ ∀ pair ∈ pairs,
      distance ≤ r.excess generators.get w
        ((generator generators pair.1).cross (generator generators pair.2)).normalize := by
  rw [margins_of_some h, Scalar.le_least_iff (by simpa using pairs_ne_nil h)]
  simp only [List.mem_map, forall_exists_index, and_imp, forall_apply_eq_imp_iff₂, faceDistance_eq]

theorem achievable_of_le_exactMargin (hr : r.min ≤ r.max) (hsep : Separated generators)
    (h : facePairs? generators = some pairs) {w p : Vec3 ℝ} {distance : ℝ}
    (hd : distance ≤ (r.margins generators w).exactMargin) (hp : (p - w).norm ≤ distance) :
    r.Achievable generators.get p := by
  rw [le_exactMargin_iff_excess h] at hd
  refine (achievable_iff hr (spans_of_facePairs? h)).mpr fun i j => ?_
  by_cases hc : (generators.get i).cross (generators.get j) = 0
  · rw [hc, excess_zero]
  have hface := hd _ (mem_of_cross_ne_zero hsep h i.isLt j.isLt hc)
  simp only [generator, List.getD_eq_getElem _ _ i.isLt, List.getD_eq_getElem _ _ j.isLt] at hface
  rw [← Vec3.normalize_mul_norm hc, excess_mul (Vec3.norm_nonneg _), excess_sub_excess w]
  refine mul_nonneg (sub_nonneg.mpr ?_) (Vec3.norm_nonneg _)
  calc _ ≤ ((generators.get i).cross (generators.get j)).normalize.norm * (p - w).norm :=
        Vec3.dot_le_norm_mul_norm _ _
    _ = (p - w).norm := by rw [Vec3.norm_normalize hc, one_mul]
    _ ≤ distance := hp
    _ ≤ _ := hface

/-- Where every vector as near as `distance` is achievable, so is the one that far along the normal
of a face. -/
theorem le_exactMargin_of_achievable (h : facePairs? generators = some pairs) {w : Vec3 ℝ} {distance : ℝ} (hd : 0 ≤ distance)
    (hall : ∀ p : Vec3 ℝ, (p - w).norm ≤ distance → r.Achievable generators.get p) :
    distance ≤ (r.margins generators w).exactMargin := by
  rw [le_exactMargin_iff_excess h]
  intro pair hmem
  generalize hn : ((generator generators pair.1).cross (generator generators pair.2)).normalize = n
  have hunit : n.norm = 1 := hn ▸ Vec3.norm_normalize (cross_ne_zero_of_mem h hmem)
  have hstep : w + (n * distance : Vec3 ℝ) - w = n * distance := add_sub_cancel_left _ _
  have hnear : (w + (n * distance : Vec3 ℝ) - w).norm ≤ distance := by
    rw [hstep, Vec3.norm_mul, hunit, one_mul, abs_of_nonneg hd]
  have hexcess := (hall _ hnear).excess_nonneg n
  rw [excess_sub_excess w, hstep, Vec3.dot_mul, ← Vec3.normSq_eq, ← Vec3.norm_mul_self, hunit] at hexcess
  linarith

/-- The exact margin is the distance from the required vector to the boundary of the achievable
set, and negative if the vector is not achievable. -/
theorem le_exactMargin_iff (hr : r.min ≤ r.max) (hsep : Separated generators)
    (h : facePairs? generators = some pairs) (w : Vec3 ℝ) :
    (∀ distance, 0 ≤ distance → (distance ≤ (r.margins generators w).exactMargin ↔
      ∀ p : Vec3 ℝ, (p - w).norm ≤ distance → r.Achievable generators.get p)) ∧
    (0 ≤ (r.margins generators w).exactMargin ↔ r.Achievable generators.get w) := by
  have hball : ∀ distance, 0 ≤ distance → (distance ≤ (r.margins generators w).exactMargin ↔
      ∀ p : Vec3 ℝ, (p - w).norm ≤ distance → r.Achievable generators.get p) := fun distance hd =>
    ⟨fun hm _ hp => achievable_of_le_exactMargin hr hsep h hm hp,
      le_exactMargin_of_achievable h hd⟩
  refine ⟨hball, (hball 0 le_rfl).trans ⟨fun hall => hall w ?_, fun hw p hp => ?_⟩⟩
  · rw [sub_self, Vec3.norm_zero]
  · have hzero := Vec3.norm_eq_zero.mp (le_antisymm hp (Vec3.norm_nonneg _))
    rwa [sub_eq_zero.mp hzero]

noncomputable def axes : List (Vec3 ℝ) := [⟨1, 0, 0⟩, ⟨0, 1, 0⟩, ⟨0, 0, 1⟩, ⟨-1, 0, 0⟩]

theorem norm_of_mem_axes {a : Vec3 ℝ} (ha : a ∈ axes) : a.norm = 1 := by
  have hsq : a.normSq = 1 := by
    simp only [axes, List.mem_cons, List.not_mem_nil, or_false] at ha
    rcases ha with rfl | rfl | rfl | rfl <;> norm_num [Vec3.normSq_eq, Vec3.dot_eq]
  rw [Vec3.norm_eq, hsq, Real.sqrt_one]

theorem separated_axes : Separated axes := by
  intro a ha b hb _ _
  have hnorm : (a.direction.cross b.direction).norm = (a.cross b).norm := by
    rw [direction_cross_direction, Vec3.norm_mul, norm_of_mem_axes ha, norm_of_mem_axes hb]
    norm_num
  have hsq : a.cross b = 0 ∨ (a.cross b).normSq = 1 := by
    simp only [axes, List.mem_cons, List.not_mem_nil, or_false] at ha hb
    rcases ha with rfl | rfl | rfl | rfl <;> rcases hb with rfl | rfl | rfl | rfl <;>
      norm_num [Vec3.ext_iff, Vec3.normSq_eq, Vec3.dot_eq]
  refine hsq.imp_right fun hone => ?_
  rw [hnorm, Vec3.norm_eq, hone, Real.sqrt_one]
  norm_num [parallelTolerance]

theorem facePairs?_axes : ∃ pairs, facePairs? axes = some pairs := by
  have hsub : ([⟨1, 0, 0⟩, ⟨0, 1, 0⟩, ⟨0, 0, 1⟩] : List (Vec3 ℝ)).Sublist axes :=
    List.sublist_append_left _ [(⟨-1, 0, 0⟩ : Vec3 ℝ)]
  refine exists_facePairs hsub ?_
  rw [direction_cross_direction, Vec3.direction_eq ⟨0, 0, 1⟩]
  norm_num [Vec3.norm_eq, Vec3.normSq_eq, Vec3.dot_eq, degenerateTolerance]

theorem le_exactMargin_iff_axes :
    ∃ pairs, facePairs? axes = some pairs ∧ Separated axes ∧
      (∀ distance, 0 ≤ distance →
        (distance ≤ ((⟨0, 1, 1⟩ : ThrustRange ℝ).margins axes ⟨0, 1, 1⟩).exactMargin ↔
          ∀ p : Vec3 ℝ, (p - ⟨0, 1, 1⟩).norm ≤ distance →
            (⟨0, 1, 1⟩ : ThrustRange ℝ).Achievable axes.get p)) ∧
      (0 ≤ ((⟨0, 1, 1⟩ : ThrustRange ℝ).margins axes ⟨0, 1, 1⟩).exactMargin ↔
        (⟨0, 1, 1⟩ : ThrustRange ℝ).Achievable axes.get ⟨0, 1, 1⟩) := by
  obtain ⟨pairs, hpairs⟩ := facePairs?_axes
  exact ⟨pairs, hpairs, separated_axes,
    le_exactMargin_iff (r := ⟨0, 1, 1⟩) zero_le_one separated_axes hpairs ⟨0, 1, 1⟩⟩

end ThrustRange

end Multirotor
