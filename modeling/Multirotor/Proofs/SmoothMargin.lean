import Multirotor.Proofs.Margin

/-!
# The smooth margin

The smooth variant of the positive part lies below it, by no more than the
greatest value of `t / (1 + e ^ t)`. A face leaves two generators out, so the
smooth distance to it stays within `smoothBound` of the exact one, and the
margins are as close (`smoothMargin_within_bound`).
-/

namespace Multirotor

/-! ## What a face leaves out -/

theorem length_offFace {β : Type} {items : List β} {i j : Nat} (hi : i < items.length)
    (hj : j < items.length) (hne : i ≠ j) : (offFace items (i, j)).length = items.length - 2 := by
  have hplaces : (offFace items (i, j)).length =
      ((items.zipIdx.map Prod.snd).filter fun k => k != i && k != j).length := by
    unfold offFace
    rw [List.length_map, List.filter_map, List.length_map]
    rfl
  have hnd : (List.range' 0 items.length).Nodup := List.nodup_range'
  have hfilter : (List.range' 0 items.length).filter (fun k => k != i && k != j) =
      ((List.range' 0 items.length).erase j).erase i := by
    rw [(hnd.erase j).erase_eq_filter, hnd.erase_eq_filter, List.filter_filter]
  have hmem : i ∈ (List.range' 0 items.length).erase j :=
    (List.mem_erase_of_ne hne).mpr (by simpa using hi)
  rw [hplaces, List.zipIdx_map_snd, hfilter, List.length_erase_of_mem hmem,
    List.length_erase_of_mem (by simpa using hj), List.length_range']
  omega

theorem sum_map_le_add {β : Type} {f g : β → ℝ} {l : List β} {gap : ℝ}
    (h : ∀ x ∈ l, f x ≤ g x + gap) : (l.map f).sum ≤ (l.map g).sum + l.length * gap := by
  induction l with
  | nil => simp
  | cons x l ih =>
    have hx := h x List.mem_cons_self
    have hl := ih fun y hy => h y (List.mem_cons_of_mem _ hy)
    simp only [List.map_cons, List.sum_cons, List.length_cons, Nat.cast_add_one]
    linarith

theorem least_map_le_add {β : Type} {f g : β → ℝ} {l : List β} {gap : ℝ} (hne : l ≠ [])
    (h : ∀ x ∈ l, f x ≤ g x + gap) :
    Scalar.least (l.map f) ≤ Scalar.least (l.map g) + gap := by
  have hf : l.map f ≠ [] := by simpa using hne
  have hg : l.map g ≠ [] := by simpa using hne
  rw [← sub_le_iff_le_add, Scalar.le_least_iff hg]
  intro y hy
  obtain ⟨x, hx, rfl⟩ := List.mem_map.mp hy
  have hleast := (Scalar.le_least_iff hf).mp le_rfl (f x) (List.mem_map_of_mem hx)
  linarith [h x hx]

namespace ThrustRange

/-! ## The greatest gap -/

theorem smoothGap_pos : (0 : ℝ) < smoothGap := by
  norm_num [smoothGap]

theorem one_le_smoothGap_mul_exp : 1 ≤ (smoothGap : ℝ) * Real.exp (1 + smoothGap) := by
  have hgap : (smoothGap : ℝ) = 0.2785 := by
    norm_num [smoothGap]
  have hexp : 1.3211 ≤ Real.exp 0.2785 := by
    refine le_trans ?_ (Real.sum_le_exp_of_nonneg (by norm_num) 5)
    norm_num [Finset.sum_range_succ, Nat.factorial]
  have hprod : 2.7182818283 * 1.3211 ≤ Real.exp 1 * Real.exp 0.2785 :=
    mul_le_mul Real.exp_one_gt_d9.le hexp (by norm_num) (Real.exp_pos 1).le
  rw [hgap, Real.exp_add]
  linarith

theorem div_one_add_exp_le (t : ℝ) : t / (1 + Real.exp t) ≤ smoothGap := by
  have hpos := Real.exp_pos t
  rw [div_le_iff₀ (by linarith), mul_add, mul_one]
  by_cases ht : t ≤ smoothGap
  · linarith [mul_pos smoothGap_pos hpos]
  · -- The exponential lies above its tangent at `1 + smoothGap`.
    have htangent : Real.exp (1 + smoothGap) * (t - smoothGap) ≤ Real.exp t := by
      have hone := Real.add_one_le_exp (t - (1 + smoothGap))
      calc Real.exp (1 + smoothGap) * (t - smoothGap)
          ≤ Real.exp (1 + smoothGap) * Real.exp (t - (1 + smoothGap)) :=
            mul_le_mul_of_nonneg_left (by linarith) (Real.exp_pos _).le
        _ = Real.exp t := by rw [← Real.exp_add, add_sub_cancel]
    have hslope : t - smoothGap ≤ smoothGap * Real.exp t := by
      calc t - smoothGap ≤ smoothGap * Real.exp (1 + smoothGap) * (t - smoothGap) :=
            le_mul_of_one_le_left (by linarith) one_le_smoothGap_mul_exp
        _ ≤ smoothGap * Real.exp t := by
            rw [mul_assoc]
            exact mul_le_mul_of_nonneg_left htangent smoothGap_pos.le
    linarith

variable {r : ThrustRange ℝ}

theorem support_exact_sub_smooth (x : ℝ) : r.support .exact x - r.support .smooth x =
    |x| / (1 + Real.exp (r.sharpness * |x|)) := by
  have hlogistic : r.support .smooth x = x / (1 + Real.exp (-(r.sharpness * x))) :=
    mul_one_div _ _
  have hexact : r.support .exact x = x ⊔ 0 := Scalar.larger_real x 0
  rw [hlogistic, hexact]
  rcases le_total 0 x with hx | hx
  · rw [max_eq_left hx, abs_of_nonneg hx, Real.exp_neg]
    field_simp
    ring
  · rw [max_eq_right hx, abs_of_nonpos hx, mul_neg]
    ring

theorem support_smooth_le (x : ℝ) : r.support .smooth x ≤ r.support .exact x := by
  refine sub_nonneg.mp ?_
  rw [support_exact_sub_smooth]
  positivity

theorem support_exact_le (h : 0 < r.sharpness) (x : ℝ) :
    r.support .exact x ≤ r.support .smooth x + smoothGap / r.sharpness := by
  have hgap := div_one_add_exp_le (r.sharpness * |x|)
  rw [mul_div_assoc, ← support_exact_sub_smooth] at hgap
  rw [← sub_le_iff_le_add', le_div_iff₀' h]
  exact hgap

theorem span_nonneg (hr : r.min ≤ r.max) : 0 ≤ r.span := sub_nonneg.mpr hr

theorem smooth_le_reach (hr : r.min ≤ r.max) (x : ℝ) :
    r.min * x + r.span * r.support .smooth x ≤ r.reach x :=
  add_le_add_right (mul_le_mul_of_nonneg_left (support_smooth_le x) (span_nonneg hr)) _

theorem reach_le_smooth (hr : r.min ≤ r.max) (hs : 0 < r.sharpness) (x : ℝ) :
    r.reach x ≤ r.min * x + r.span * r.support .smooth x + r.span * (smoothGap / r.sharpness) := by
  rw [add_assoc, ← mul_add]
  exact add_le_add_right (mul_le_mul_of_nonneg_left (support_exact_le hs x) (span_nonneg hr)) _

theorem smoothBound_nonneg (hr : r.min ≤ r.max) (hs : 0 < r.sharpness) (count : Nat) :
    0 ≤ r.smoothBound count := by
  have hspan := span_nonneg hr
  have hgap := smoothGap_pos
  unfold smoothBound
  positivity

/-! ## Faces -/

section
variable {generators : List (Vec3 ℝ)} {pairs : List (Nat × Nat)} {pair : Nat × Nat} (w : Vec3 ℝ)

theorem smooth_le_faceDistance (hr : r.min ≤ r.max) :
    r.faceDistance .smooth generators w pair ≤ r.faceDistance .exact generators w pair := by
  unfold faceDistance
  simp only [Scalar.sum_real]
  exact sub_le_sub_right (List.sum_le_sum fun g _ => smooth_le_reach hr _) _

theorem faceDistance_le_smooth (hr : r.min ≤ r.max) (hs : 0 < r.sharpness)
    (h : facePairs? generators = some pairs) (hp : pair ∈ pairs) :
    r.faceDistance .exact generators w pair ≤
      r.faceDistance .smooth generators w pair + r.smoothBound generators.length := by
  obtain ⟨hi, hj, hne, -⟩ := (mem_facePairs? h).mp hp
  have hbound : r.smoothBound generators.length =
      (offFace generators pair).length * (r.span * (smoothGap / r.sharpness)) := by
    rw [length_offFace hi hj hne, smoothBound]
    ring
  rw [hbound]
  unfold faceDistance
  simp only [Scalar.sum_real]
  rw [sub_add_eq_add_sub]
  exact sub_le_sub_right (sum_map_le_add fun g _ => reach_le_smooth hr hs _) _

end

/-- The smooth margin promises no more than the exact one, and little less. -/
theorem smoothMargin_within_bound (hr : r.min ≤ r.max) (hs : 0 < r.sharpness)
    (generators : List (Vec3 ℝ)) (required : Vec3 ℝ) :
    let m := r.margins generators required
    let bound := r.smoothBound generators.length
    List.Forall₂ (fun smooth exact => smooth ≤ exact ∧ exact - smooth ≤ bound) m.smooth m.exact ∧
      m.smoothMargin ≤ m.exactMargin ∧ m.exactMargin ≤ m.smoothMargin + bound := by
  intro m bound
  cases h : facePairs? generators with
  | none =>
    rw [show m = _ from margins_of_none h required]
    exact ⟨.nil, le_rfl, by simpa using smoothBound_nonneg hr hs generators.length⟩
  | some pairs =>
    have hbelow : ∀ pair ∈ pairs, r.faceDistance .smooth generators required pair ≤
        r.faceDistance .exact generators required pair + 0 := fun _ _ =>
      (smooth_le_faceDistance required hr).trans_eq (add_zero _).symm
    have habove : ∀ pair ∈ pairs, r.faceDistance .exact generators required pair ≤
        r.faceDistance .smooth generators required pair + bound := fun _ hp =>
      faceDistance_le_smooth required hr hs h hp
    rw [show m = _ from margins_of_some h required]
    refine ⟨?_, ?_, least_map_le_add (pairs_ne_nil h) habove⟩
    · simp only [List.forall₂_map_left_iff, List.forall₂_map_right_iff]
      exact List.forall₂_same.mpr fun pair hp =>
        ⟨smooth_le_faceDistance required hr, sub_le_iff_le_add'.mpr (habove pair hp)⟩
    · exact (least_map_le_add (pairs_ne_nil h) hbelow).trans_eq (add_zero _)

theorem smoothMargin_within_bound_axes :
    let m := (⟨0, 1, 1⟩ : ThrustRange ℝ).margins axes ⟨0, 1, 1⟩
    m.degenerate = false ∧
      List.Forall₂ (fun smooth exact => smooth ≤ exact ∧ exact - smooth ≤ 0.557) m.smooth m.exact ∧
      m.smoothMargin ≤ m.exactMargin ∧ m.exactMargin ≤ m.smoothMargin + 0.557 := by
  intro m
  obtain ⟨pairs, hpairs⟩ := facePairs?_axes
  have hbound : (⟨0, 1, 1⟩ : ThrustRange ℝ).smoothBound axes.length = 0.557 := by
    norm_num [smoothBound, smoothGap, axes, span]
  refine ⟨by simp only [m, margins, hpairs], ?_⟩
  rw [← hbound]
  exact smoothMargin_within_bound (r := ⟨0, 1, 1⟩) zero_le_one one_pos axes ⟨0, 1, 1⟩

end ThrustRange

end Multirotor
