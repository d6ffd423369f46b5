import Multirotor.Proofs.Margin

/-!
# What the listed faces bound

Generators that span space list at least the faces of two pairs with one
generator in common (`exists_fan`). So the normals of the listed faces span
space, and any margin bounds the required vector, unless they are all
orthogonal to that generator: all pairs whose face would cross it are then
within the tolerance of being parallel, and along it the margins stay the same
(`normalsSpan_iff`).
-/

namespace Multirotor

section Faces

variable {generators : List (Vec3 ℝ)} {pairs : List (Nat × Nat)} {pair : Nat × Nat}
  {a b c : Vec3 ℝ}

noncomputable def faceNormal (generators : List (Vec3 ℝ)) (pair : Nat × Nat) : Vec3 ℝ :=
  (generator generators pair.1).cross (generator generators pair.2)

/-- Only zero is orthogonal to the normals of all listed faces. -/
def NormalsSpan (generators : List (Vec3 ℝ)) (pairs : List (Nat × Nat)) : Prop :=
  ThrustRange.Spans fun k : Fin pairs.length => faceNormal generators (pairs.get k)

def Long (a b : Vec3 ℝ) : Prop := parallelTolerance < (a.direction.cross b.direction).norm

/-- A generator that crosses no listed face: the pairs whose face it would cross are too short. -/
structure Uncrossed (generators : List (Vec3 ℝ)) (c : Vec3 ℝ) : Prop where
  mem : c ∈ generators
  ne_zero : c ≠ 0
  short : ∀ a ∈ generators, ∀ b ∈ generators, (a.cross b).dot c ≠ 0 → ¬Long a b

theorem Long.symm (h : Long a b) : Long b a := by
  unfold Long
  rw [Vec3.norm_cross_comm]
  exact h

/-! ## Listed faces -/

section
variable (h : facePairs? generators = some pairs)
include h

theorem exists_face (ha : a ∈ generators) (hb : b ∈ generators) (hlong : Long a b) :
    ∃ pair ∈ pairs, faceNormal generators pair = a.cross b := by
  obtain ⟨pair, hp, rfl, rfl⟩ := exists_pair h ha hb hlong
  exact ⟨pair, hp, rfl⟩

theorem exists_long (hp : pair ∈ pairs) : ∃ a ∈ generators, ∃ b ∈ generators,
    Long a b ∧ faceNormal generators pair = a.cross b := by
  obtain ⟨hi, hj, -, hlong⟩ := (mem_facePairs? h).mp hp
  refine ⟨_, List.getElem_mem hi, _, List.getElem_mem hj, hlong, ?_⟩
  rw [faceNormal, generator, generator, List.getD_eq_getElem _ _ hi, List.getD_eq_getElem _ _ hj]

theorem uncrossed_iff : Uncrossed generators c ↔
    c ∈ generators ∧ c ≠ 0 ∧ ∀ pair ∈ pairs, (faceNormal generators pair).dot c = 0 := by
  constructor
  · rintro ⟨hmem, hne, hshort⟩
    refine ⟨hmem, hne, fun pair hp => ?_⟩
    obtain ⟨a, ha, b, hb, hlong, hn⟩ := exists_long h hp
    rw [hn]
    by_contra hc
    exact hshort a ha b hb hc hlong
  · rintro ⟨hmem, hne, horth⟩
    refine ⟨hmem, hne, fun a ha b hb hc hlong => hc ?_⟩
    obtain ⟨pair, hp, hn⟩ := exists_face h ha hb hlong
    rw [← hn]
    exact horth pair hp

theorem swap_mem (hp : pair ∈ pairs) : pair.swap ∈ pairs := by
  obtain ⟨hi, hj, hne, hlong⟩ := (mem_facePairs? h).mp hp
  exact (mem_facePairs? h).mpr ⟨hj, hi, hne.symm, Long.symm hlong⟩

/-- Two listed faces share a generator. Of three generators that span space, two at most are
parallel within the tolerance. -/
theorem exists_fan : ∃ a ∈ generators, ∃ b ∈ generators, ∃ c ∈ generators,
    (a.cross b).dot c ≠ 0 ∧ Long a b ∧ Long a c := by
  obtain ⟨a, ha, b, hb, c, hc, hvolume⟩ := exists_volume h
  have hne := volume_ne_zero hvolume
  have hturn := Vec3.cross_dot_turn
  have hb' : Long b c ∨ Long b a := parallelTolerance_lt_of_volume (hturn _ _ _ ▸ hvolume)
  have hc' : Long c a ∨ Long c b :=
    parallelTolerance_lt_of_volume (hturn _ _ _ ▸ hturn _ _ _ ▸ hvolume)
  by_cases hab : Long a b
  · by_cases hac : Long a c
    · exact ⟨a, ha, b, hb, c, hc, hne, hab, hac⟩
    · have hcb := hc'.resolve_left fun hca => hac hca.symm
      exact ⟨b, hb, c, hc, a, ha, hturn a b c ▸ hne, hcb.symm, hab.symm⟩
  · have hac := (parallelTolerance_lt_of_volume hvolume).resolve_left hab
    have hbc := hb'.resolve_right fun hba => hab hba.symm
    exact ⟨c, hc, a, ha, b, hb, hturn b c a ▸ hturn a b c ▸ hne, Long.symm hac, hbc.symm⟩

/-- Three listed normals span space, or a generator crosses no listed face. -/
theorem exists_independent (hnone : ¬∃ c, Uncrossed generators c) :
    ∃ p ∈ pairs, ∃ q ∈ pairs, ∃ r ∈ pairs,
      ((faceNormal generators p).cross (faceNormal generators q)).dot (faceNormal generators r) ≠ 0 := by
  obtain ⟨a, ha, b, hb, c, hc, hvolume, hab, hac⟩ := exists_fan h
  obtain ⟨p, hp, hpn⟩ := exists_face h ha hb hab
  obtain ⟨q, hq, hqn⟩ := exists_face h ha hc hac
  have hne : a ≠ 0 := by
    rintro rfl
    exact hvolume (by rw [Vec3.zero_cross, Vec3.zero_dot])
  obtain ⟨r, hr, hcross⟩ : ∃ r ∈ pairs, (faceNormal generators r).dot a ≠ 0 := by
    by_contra hall
    push Not at hall
    exact hnone ⟨a, (uncrossed_iff h).mpr ⟨ha, hne, hall⟩⟩
  refine ⟨p, hp, q, hq, r, hr, ?_⟩
  rw [hpn, hqn, Vec3.cross_cross_cross, Vec3.mul_dot, Vec3.dot_comm]
  exact mul_ne_zero hcross hvolume

theorem normalsSpan_iff_uncrossed : NormalsSpan generators pairs ↔ ¬∃ c, Uncrossed generators c := by
  constructor
  · rintro hspan ⟨c, hc⟩
    obtain ⟨-, hne, horth⟩ := (uncrossed_iff h).mp hc
    refine hne (hspan c fun k => ?_)
    rw [Vec3.dot_comm]
    exact horth _ (List.get_mem pairs k)
  · intro hnone u hu
    obtain ⟨p, hp, q, hq, r, hr, hne⟩ := exists_independent h hnone
    have horth : ∀ pair ∈ pairs, (faceNormal generators pair).dot u = 0 := fun pair hpair => by
      obtain ⟨k, rfl⟩ := List.get_of_mem hpair
      rw [Vec3.dot_comm, hu k]
    exact Vec3.eq_zero_of_triple hne (horth p hp) (horth q hq) (horth r hr)

theorem normalsSpan_of_separated (hsep : Separated generators) : NormalsSpan generators pairs := by
  obtain ⟨a, ha, b, hb, c, hc, hvolume, -, -⟩ := exists_fan h
  refine (normalsSpan_iff_uncrossed h).mpr ?_
  rintro ⟨u, hu⟩
  -- All pairs that are not parallel are listed, so `u` is orthogonal to all cross products.
  have horth : ∀ x ∈ generators, ∀ y ∈ generators, (x.cross y).dot u = 0 := by
    intro x hx y hy
    by_contra hne
    refine hu.short x hx y hy hne (hsep.long hx hy ?_)
    intro hzero
    exact hne (by rw [hzero, Vec3.zero_dot])
  refine hu.ne_zero (Vec3.eq_zero_of_triple ?_ (horth a ha b hb) (horth a ha c hc) (horth b hb c hc))
  rw [Vec3.cross_cross_cross, Vec3.mul_dot, ← Vec3.cross_dot]
  exact mul_ne_zero hvolume hvolume

end

end Faces

/-! ## The region within a margin -/

namespace ThrustRange

variable {r : ThrustRange ℝ} {s : Support} {generators : List (Vec3 ℝ)} {pairs : List (Nat × Nat)}
  {pair : Nat × Nat} {c w : Vec3 ℝ} {margin : ℝ}

/-- The required vectors that stay a margin away from all listed faces. -/
noncomputable def region (r : ThrustRange ℝ) (s : Support) (generators : List (Vec3 ℝ))
    (pairs : List (Nat × Nat)) (margin : ℝ) : Set (Vec3 ℝ) :=
  {w | ∀ pair ∈ pairs, margin ≤ r.faceDistance s generators w pair}

theorem faceDistance_eq_sub : r.faceDistance s generators w pair =
    r.faceDistance s generators 0 pair - (faceNormal generators pair).normalize.dot w := by
  simp only [faceDistance, Vec3.dot_zero, sub_zero, faceNormal]

theorem faceDistance_along (horth : (faceNormal generators pair).dot c = 0) (t : ℝ) :
    r.faceDistance s generators (w + (c * t : Vec3 ℝ)) pair = r.faceDistance s generators w pair := by
  have hnormal : (faceNormal generators pair).normalize.dot c = 0 := by
    rw [Vec3.normalize_eq, Vec3.mul_dot, horth, zero_mul]
  rw [faceDistance_eq_sub, Vec3.dot_add, Vec3.dot_mul, hnormal, zero_mul, add_zero,
    ← faceDistance_eq_sub]

theorem dot_le_of_mem (hp : pair ∈ pairs) (hw : w ∈ r.region s generators pairs margin) :
    (faceNormal generators pair).dot w ≤
      (r.faceDistance s generators 0 pair - margin) * (faceNormal generators pair).norm := by
  have hface := hw pair hp
  rw [faceDistance_eq_sub] at hface
  by_cases hn : faceNormal generators pair = 0
  · rw [hn, Vec3.zero_dot, Vec3.norm_zero, mul_zero]
  · have hdot : (faceNormal generators pair).dot w =
        (faceNormal generators pair).normalize.dot w * (faceNormal generators pair).norm := by
      rw [← Vec3.mul_dot, Vec3.normalize_mul_norm hn]
    rw [hdot]
    exact mul_le_mul_of_nonneg_right (by linarith) (Vec3.norm_nonneg _)

section
variable (h : facePairs? generators = some pairs)
include h

theorem exists_abs_dot_le (hp : pair ∈ pairs) (r : ThrustRange ℝ) (s : Support) (margin : ℝ) :
    ∃ bound, ∀ w ∈ r.region s generators pairs margin,
      |(faceNormal generators pair).dot w| ≤ bound := by
  have hswap : ∀ w, (faceNormal generators pair.swap).dot w = -(faceNormal generators pair).dot w := by
    intro w
    simp only [faceNormal, Prod.fst_swap, Prod.snd_swap, Vec3.dot_eq, Vec3.cross_x, Vec3.cross_y,
      Vec3.cross_z]
    ring
  have hside : ∀ {p}, p ∈ pairs → ∃ bound, ∀ w ∈ r.region s generators pairs margin,
      (faceNormal generators p).dot w ≤ bound := fun hp => ⟨_, fun _ => dot_le_of_mem hp⟩
  obtain ⟨above, habove⟩ := hside hp
  obtain ⟨below, hbelow⟩ := hside (swap_mem h hp)
  refine ⟨above ⊔ below, fun w hw => abs_le'.mpr ⟨(habove w hw).trans le_sup_left, ?_⟩⟩
  rw [← hswap]
  exact (hbelow w hw).trans le_sup_right

theorem exists_norm_le (hspan : NormalsSpan generators pairs) (r : ThrustRange ℝ) (s : Support)
    (margin : ℝ) : ∃ bound, ∀ w ∈ r.region s generators pairs margin, w.norm ≤ bound := by
  obtain ⟨p₁, h₁, p₂, h₂, p₃, h₃, hne⟩ :=
    exists_independent h ((normalsSpan_iff_uncrossed h).mp hspan)
  obtain ⟨b₁, hb₁⟩ := exists_abs_dot_le h h₁ r s margin
  obtain ⟨b₂, hb₂⟩ := exists_abs_dot_le h h₂ r s margin
  obtain ⟨b₃, hb₃⟩ := exists_abs_dot_le h h₃ r s margin
  generalize faceNormal generators p₁ = n₁ at hne hb₁
  generalize faceNormal generators p₂ = n₂ at hne hb₂
  generalize faceNormal generators p₃ = n₃ at hne hb₃
  refine ⟨((n₂.cross n₃).norm * b₁ + (n₃.cross n₁).norm * b₂ + (n₁.cross n₂).norm * b₃) /
    |(n₁.cross n₂).dot n₃|, fun w hw => ?_⟩
  rw [le_div_iff₀ (abs_pos.mpr hne)]
  have hpart : ∀ (x : Vec3 ℝ) {y b : ℝ}, |y| ≤ b → (x * y : Vec3 ℝ).norm ≤ x.norm * b := by
    intro x y b hy
    rw [Vec3.norm_mul]
    exact mul_le_mul_of_nonneg_left hy (Vec3.norm_nonneg x)
  calc w.norm * |(n₁.cross n₂).dot n₃|
      = (n₂.cross n₃ * n₁.dot w + n₃.cross n₁ * n₂.dot w + n₁.cross n₂ * n₃.dot w).norm := by
        rw [← Vec3.norm_mul, Vec3.mul_triple]
    _ ≤ (n₂.cross n₃ * n₁.dot w : Vec3 ℝ).norm + (n₃.cross n₁ * n₂.dot w : Vec3 ℝ).norm +
          (n₁.cross n₂ * n₃.dot w : Vec3 ℝ).norm :=
        (Vec3.norm_add_le _ _).trans (add_le_add_left (Vec3.norm_add_le _ _) _)
    _ ≤ _ := add_le_add (add_le_add (hpart _ (hb₁ w hw)) (hpart _ (hb₂ w hw))) (hpart _ (hb₃ w hw))

theorem margins_along (hc : Uncrossed generators c) (r : ThrustRange ℝ) (w : Vec3 ℝ) (t : ℝ) :
    r.margins generators (w + (c * t : Vec3 ℝ)) = r.margins generators w := by
  obtain ⟨-, -, horth⟩ := (uncrossed_iff h).mp hc
  have hdistances : ∀ s, pairs.map (r.faceDistance s generators (w + (c * t : Vec3 ℝ))) =
      pairs.map (r.faceDistance s generators w) := fun s =>
    List.map_congr_left fun pair hp => faceDistance_along (horth pair hp) t
  rw [margins_of_some h, margins_of_some h, hdistances, hdistances]

theorem mem_region_iff : w ∈ r.region .exact generators pairs margin ↔
    margin ≤ (r.margins generators w).exactMargin := by
  rw [margins_of_some h, Scalar.le_least_iff (by simpa using pairs_ne_nil h)]
  simp only [List.mem_map, forall_exists_index, and_imp, forall_apply_eq_imp_iff₂]
  rfl

theorem not_exists_norm_le (hc : Uncrossed generators c) (r : ThrustRange ℝ) :
    ¬∀ margin, ∃ bound, ∀ w ∈ r.region .exact generators pairs margin, w.norm ≤ bound := by
  intro hall
  obtain ⟨bound, hbound⟩ := hall (r.margins generators 0).exactMargin
  have hlong : ∀ t : ℝ, c.norm * |t| ≤ bound := by
    intro t
    rw [← Vec3.norm_mul]
    refine hbound _ ((mem_region_iff h).mpr ?_)
    rw [← zero_add (c * t : Vec3 ℝ), margins_along h hc]
  have hpos := Vec3.norm_pos hc.ne_zero
  have hfar := hlong ((|bound| + 1) / c.norm)
  rw [abs_div, abs_of_pos hpos, mul_div_cancel₀ _ hpos.ne'] at hfar
  have := le_abs_self (|bound| + 1)
  have := le_abs_self bound
  linarith

end

/-- The normals of the listed faces span space exactly if margins bound the required vector, and
exactly if every generator crosses a listed face. Along one that crosses none, margins stay. -/
theorem normalsSpan_iff (h : facePairs? generators = some pairs) :
    (NormalsSpan generators pairs ↔ ∀ (r : ThrustRange ℝ) (s : Support) (margin : ℝ),
      ∃ bound, ∀ w ∈ r.region s generators pairs margin, w.norm ≤ bound) ∧
    (NormalsSpan generators pairs ↔ ¬∃ c, Uncrossed generators c) ∧
    (∀ c, Uncrossed generators c → ∀ (r : ThrustRange ℝ) (w : Vec3 ℝ) (t : ℝ),
      r.margins generators (w + (c * t : Vec3 ℝ)) = r.margins generators w) ∧
    (Separated generators → NormalsSpan generators pairs) := by
  refine ⟨⟨exists_norm_le h, fun hall => ?_⟩, normalsSpan_iff_uncrossed h,
    fun _ => margins_along h, normalsSpan_of_separated h⟩
  refine (normalsSpan_iff_uncrossed h).mpr ?_
  rintro ⟨c, hc⟩
  exact not_exists_norm_le h hc ⟨0, 0, 0⟩ (hall _ .exact)

theorem normalsSpan_iff_axes : ∃ pairs, facePairs? axes = some pairs ∧ NormalsSpan axes pairs ∧
    (∀ margin, ∃ bound, ∀ w ∈ (⟨0, 1, 1⟩ : ThrustRange ℝ).region .exact axes pairs margin,
      w.norm ≤ bound) ∧ ¬∃ c, Uncrossed axes c := by
  obtain ⟨pairs, hpairs⟩ := facePairs?_axes
  obtain ⟨hbounded, huncrossed, -, hspan⟩ := normalsSpan_iff hpairs
  have hnormals := hspan separated_axes
  exact ⟨pairs, hpairs, hnormals, hbounded.mp hnormals ⟨0, 1, 1⟩ .exact, huncrossed.mp hnormals⟩

/-! ## Two generators that are almost parallel -/

noncomputable def ahead : Vec3 ℝ := ⟨1000000, 0, 0⟩

noncomputable def aside : Vec3 ℝ := ⟨1000000, 0.5, 0⟩

noncomputable def upward : Vec3 ℝ := ⟨0, 0, 1⟩

noncomputable def narrow : List (Vec3 ℝ) := [ahead, aside, upward]

theorem norm_ahead : ahead.norm = 1000000 := by
  have hsq : ahead.normSq = 1000000 * 1000000 := by
    norm_num [ahead, Vec3.normSq_eq, Vec3.dot_eq]
  rw [Vec3.norm_eq, hsq, Real.sqrt_mul_self (by norm_num)]

theorem norm_aside : 1000000 ≤ aside.norm ∧ aside.norm ≤ 1000001 := by
  rw [Vec3.norm_eq]
  constructor
  · refine Real.le_sqrt_of_sq_le ?_
    norm_num [aside, Vec3.normSq_eq, Vec3.dot_eq]
  · refine Real.sqrt_le_iff.mpr ?_
    norm_num [aside, Vec3.normSq_eq, Vec3.dot_eq]

theorem norm_upward : upward.norm = 1 := by
  simp [Vec3.norm_eq, Vec3.normSq_eq, Vec3.dot_eq, upward]

theorem cross_ahead_aside : ahead.cross aside = upward * (500000 : ℝ) := by
  ext <;> norm_num [ahead, aside, upward]

theorem not_long_ahead : ¬Long ahead aside := by
  obtain ⟨hlow, -⟩ := norm_aside
  have hinv : aside.norm⁻¹ ≤ 1000000⁻¹ := inv_anti₀ (by norm_num) hlow
  have hpos : 0 < aside.norm⁻¹ := inv_pos.mpr (by linarith)
  have hnorm : (ahead.direction.cross aside.direction).norm =
      500000 * (1000000⁻¹ * aside.norm⁻¹) := by
    rw [direction_cross_direction, cross_ahead_aside, Vec3.norm_mul, Vec3.norm_mul, norm_upward,
      norm_ahead, abs_of_pos (by norm_num), abs_of_pos (by positivity), one_mul]
  unfold Long
  rw [hnorm, not_lt, parallelTolerance]
  norm_num at hinv ⊢
  linarith

theorem uncrossed_narrow : Uncrossed narrow upward := by
  refine ⟨by simp [narrow], by simp [upward, Vec3.ext_iff], ?_⟩
  intro a ha b hb hne hlong
  simp only [narrow, List.mem_cons, List.not_mem_nil, or_false] at ha hb
  rcases ha with rfl | rfl | rfl
  · rcases hb with rfl | rfl | rfl
    · simp at hne
    · exact not_long_ahead hlong
    · simp [ahead, upward, Vec3.dot_eq] at hne
  · rcases hb with rfl | rfl | rfl
    · exact not_long_ahead hlong.symm
    · simp at hne
    · simp [aside, upward, Vec3.dot_eq] at hne
  · rw [Vec3.dot_comm, Vec3.dot_cross_left] at hne
    exact hne rfl

theorem facePairs?_narrow : ∃ pairs, facePairs? narrow = some pairs := by
  obtain ⟨hlow, hhigh⟩ := norm_aside
  have hpos : 0 < aside.norm⁻¹ := inv_pos.mpr (by linarith)
  have hinv : (1000001 : ℝ)⁻¹ ≤ aside.norm⁻¹ := inv_anti₀ (by linarith) hhigh
  have htriple : (ahead.direction.cross aside.direction).dot upward.direction = aside.norm⁻¹ / 2 := by
    rw [direction_cross_direction, cross_ahead_aside, Vec3.direction_eq upward, norm_upward,
      norm_ahead, Vec3.mul_dot, Vec3.mul_dot, Vec3.dot_mul]
    norm_num [upward, Vec3.dot_eq]
    ring
  refine exists_facePairs (List.Sublist.refl narrow) ?_
  rw [htriple, abs_of_pos (by positivity)]
  norm_num [degenerateTolerance] at hinv ⊢
  linarith

/-- The first two generators list no face, so nothing bounds what is required along the third. -/
theorem not_normalsSpan_narrow : ∃ pairs, facePairs? narrow = some pairs ∧
    ¬NormalsSpan narrow pairs ∧ ∀ (r : ThrustRange ℝ) (w : Vec3 ℝ) (z : ℝ),
      r.margins narrow (w + (upward * z : Vec3 ℝ)) = r.margins narrow w := by
  obtain ⟨pairs, hpairs⟩ := facePairs?_narrow
  refine ⟨pairs, hpairs, fun hspan => ?_, fun r w z => margins_along hpairs uncrossed_narrow r w z⟩
  exact (normalsSpan_iff_uncrossed hpairs).mp hspan ⟨_, uncrossed_narrow⟩

end ThrustRange

end Multirotor
