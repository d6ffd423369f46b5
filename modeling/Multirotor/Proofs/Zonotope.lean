import Multirotor.Proofs.Exact.Space
import Multirotor.Margin

/-!
# Achievable sets

The vectors that generators reach with thrusts within their bounds. When the
generators span space, a vector is among them exactly if it lies beyond none
of the planes along two of the generators (`achievable_iff`).
-/

namespace Multirotor

namespace ThrustRange

variable {r : ThrustRange ℝ}

/-! ## One generator -/

def Admits (r : ThrustRange ℝ) (t : ℝ) : Prop := r.min ≤ t ∧ t ≤ r.max

/-- The most that an admitted thrust makes of a generator of signed length `x`. -/
noncomputable def reach (r : ThrustRange ℝ) (x : ℝ) : ℝ := r.min * x + r.span * r.support .exact x

theorem reach_eq (x : ℝ) : r.reach x = r.min * x + (r.max - r.min) * (x ⊔ 0) := by
  rw [reach, support, Scalar.larger_real]
  rfl

theorem reach_of_nonneg {x : ℝ} (hx : 0 ≤ x) : r.reach x = x * r.max := by
  rw [reach_eq, max_eq_left hx]
  ring

theorem reach_of_nonpos {x : ℝ} (hx : x ≤ 0) : r.reach x = x * r.min := by
  rw [reach_eq, max_eq_right hx]
  ring

theorem reach_zero : r.reach 0 = 0 := by
  rw [reach_of_nonneg le_rfl, zero_mul]

theorem mul_le_reach {t : ℝ} (ht : r.Admits t) (x : ℝ) : x * t ≤ r.reach x := by
  rcases le_total 0 x with hx | hx
  · rw [reach_of_nonneg hx]
    exact mul_le_mul_of_nonneg_left ht.2 hx
  · rw [reach_of_nonpos hx]
    exact mul_le_mul_of_nonpos_left ht.1 hx

theorem exists_mul_eq_reach (hr : r.min ≤ r.max) (x : ℝ) : ∃ t, r.Admits t ∧ x * t = r.reach x := by
  rcases le_total 0 x with hx | hx
  · exact ⟨r.max, ⟨hr, le_rfl⟩, (reach_of_nonneg hx).symm⟩
  · exact ⟨r.min, ⟨le_rfl, hr⟩, (reach_of_nonpos hx).symm⟩

theorem reach_mul {s : ℝ} (hs : 0 ≤ s) (x : ℝ) : r.reach (x * s) = r.reach x * s := by
  have hmax : x * s ⊔ 0 = (x ⊔ 0) * s := by rw [max_mul_of_nonneg x 0 hs, zero_mul]
  rw [reach_eq, reach_eq, hmax]
  ring

theorem reach_add {x y : ℝ} (h : 0 ≤ x * y) : r.reach (x + y) = r.reach x + r.reach y := by
  rcases mul_nonneg_iff.mp h with ⟨hx, hy⟩ | ⟨hx, hy⟩
  · rw [reach_of_nonneg hx, reach_of_nonneg hy, reach_of_nonneg (add_nonneg hx hy), add_mul]
  · rw [reach_of_nonpos hx, reach_of_nonpos hy, reach_of_nonpos (add_nonpos hx hy), add_mul]

/-! ## All generators -/

section
variable {ι : Type} [Fintype ι] {g : ι → Vec3 ℝ} {p u v : Vec3 ℝ}

/-- The generators sum up to `p` with admitted thrusts. -/
def Achievable (r : ThrustRange ℝ) (g : ι → Vec3 ℝ) (p : Vec3 ℝ) : Prop :=
  ∃ t : ι → ℝ, (∀ k, r.Admits (t k)) ∧ ∑ k, (g k * t k : Vec3 ℝ) = p

/-- How far the generators reach beyond `p` along `u`. -/
noncomputable def excess (r : ThrustRange ℝ) (g : ι → Vec3 ℝ) (p u : Vec3 ℝ) : ℝ :=
  ∑ k, r.reach (u.dot (g k)) - u.dot p

theorem dot_sum_mul (u : Vec3 ℝ) (t : ι → ℝ) :
    u.dot (∑ k, (g k * t k : Vec3 ℝ)) = ∑ k, u.dot (g k) * t k := by
  rw [Vec3.dot_sum]
  exact Finset.sum_congr rfl fun k _ => Vec3.dot_mul _ _ _

theorem Achievable.excess_nonneg (h : r.Achievable g p) (u : Vec3 ℝ) : 0 ≤ r.excess g p u := by
  obtain ⟨t, ht, rfl⟩ := h
  rw [excess, dot_sum_mul, sub_nonneg]
  exact Finset.sum_le_sum fun k _ => mul_le_reach (ht k) _

theorem excess_zero : r.excess g p 0 = 0 := by
  simp [excess, reach_zero]

theorem excess_mul {s : ℝ} (hs : 0 ≤ s) (u : Vec3 ℝ) :
    r.excess g p (u * s : Vec3 ℝ) = r.excess g p u * s := by
  simp only [excess, Vec3.mul_dot, reach_mul hs, sub_mul, Finset.sum_mul]

/-- The excess is additive where no generator turns from one side to the other. -/
theorem excess_add (h : ∀ k, 0 ≤ u.dot (g k) * v.dot (g k)) :
    r.excess g p (u + v) = r.excess g p u + r.excess g p v := by
  simp only [excess, Vec3.add_dot, reach_add (h _), Finset.sum_add_distrib]
  ring

theorem excess_sub_excess (p q u : Vec3 ℝ) :
    r.excess g q u = r.excess g p u - u.dot (q - p) := by
  rw [excess, excess, Vec3.dot_sub]
  ring

/-! ## The nearest achievable vector -/

theorem exists_nearest (hr : r.min ≤ r.max) (g : ι → Vec3 ℝ) (p : Vec3 ℝ) :
    ∃ t : ι → ℝ, (∀ k, r.Admits (t k)) ∧ ∀ s : ι → ℝ, (∀ k, r.Admits (s k)) →
      (p - ∑ k, (g k * t k : Vec3 ℝ)).normSq ≤ (p - ∑ k, (g k * s k : Vec3 ℝ)).normSq := by
  have hcompact : IsCompact (Set.Icc (fun _ : ι => r.min) fun _ => r.max) := isCompact_Icc
  have hcont : Continuous fun t : ι → ℝ => (p - ∑ k, (g k * t k : Vec3 ℝ)).normSq := by
    have hsq : ∀ a : Vec3 ℝ, a.normSq = Vec3.unitX.dot a * Vec3.unitX.dot a +
        Vec3.unitY.dot a * Vec3.unitY.dot a + Vec3.unitZ.dot a * Vec3.unitZ.dot a := fun a => by
      rw [Vec3.unitX_dot, Vec3.unitY_dot, Vec3.unitZ_dot, Vec3.normSq_eq, Vec3.dot_eq]
    simp only [hsq, Vec3.dot_sub, dot_sum_mul]
    fun_prop
  obtain ⟨t, ht, hmin⟩ := hcompact.exists_isMinOn ⟨_, Set.left_mem_Icc.mpr fun _ => hr⟩
    hcont.continuousOn
  refine ⟨t, fun k => ⟨ht.1 k, ht.2 k⟩, fun s hs => ?_⟩
  exact hmin (show s ∈ Set.Icc _ _ from ⟨fun k => (hs k).1, fun k => (hs k).2⟩)

theorem dot_nonpos_of_normSq_le {d e : Vec3 ℝ}
    (h : ∀ s : ℝ, 0 ≤ s → s ≤ 1 → d.normSq ≤ (d - (e * s : Vec3 ℝ)).normSq) : d.dot e ≤ 0 := by
  have hstep : ∀ s : ℝ, 0 ≤ s → s ≤ 1 → 2 * s * d.dot e ≤ s ^ 2 * e.normSq := fun s h0 h1 => by
    have := h s h0 h1
    rw [Vec3.normSq_eq, Vec3.normSq_eq, Vec3.sub_dot, Vec3.dot_sub, Vec3.dot_sub, Vec3.dot_mul,
      Vec3.mul_dot, Vec3.mul_dot, Vec3.dot_mul, Vec3.dot_comm e d] at this
    rw [Vec3.normSq_eq]
    nlinarith
  by_contra hpos
  push Not at hpos
  have hone := hstep 1 zero_le_one le_rfl
  have hlong : 0 < e.normSq := by linarith
  have hs := hstep (d.dot e / e.normSq) (by positivity) ((div_le_one hlong).mpr (by linarith))
  have hsq : (d.dot e / e.normSq) ^ 2 * e.normSq = d.dot e / e.normSq * d.dot e := by
    field_simp
  rw [hsq] at hs
  have := mul_pos (div_pos hpos hlong) hpos
  linarith

/-- What no direction separates is achievable. -/
theorem achievable_of_excess_nonneg (hr : r.min ≤ r.max) (h : ∀ u, 0 ≤ r.excess g p u) :
    r.Achievable g p := by
  obtain ⟨t, ht, hmin⟩ := exists_nearest hr g p
  set d := p - ∑ k, (g k * t k : Vec3 ℝ) with hd
  choose s hs hreach using fun k => exists_mul_eq_reach hr (d.dot (g k))
  -- The generators reach furthest along `d` with the thrusts `s`.
  set e := ∑ k, (g k * s k : Vec3 ℝ) - ∑ k, (g k * t k : Vec3 ℝ) with he
  have hde : d.dot e = r.excess g p d + d.normSq := by
    rw [he, Vec3.dot_sub, dot_sum_mul d s, excess, Vec3.normSq_eq]
    nth_rewrite 5 [hd]
    rw [Vec3.dot_sub]
    simp only [hreach]
    ring
  have hle : d.dot e ≤ 0 := by
    refine dot_nonpos_of_normSq_le fun x h0 h1 => ?_
    have hmix : p - ∑ k, (g k * (t k + (s k - t k) * x) : Vec3 ℝ) = d - (e * x : Vec3 ℝ) := by
      refine Vec3.ext_dot fun u => ?_
      simp only [hd, he, Vec3.dot_sub, Vec3.dot_mul, dot_sum_mul, mul_add, ← mul_assoc, mul_sub,
        Finset.sum_add_distrib, ← Finset.sum_mul, Finset.sum_sub_distrib]
      ring
    rw [← hmix]
    refine hmin _ fun k => ⟨?_, ?_⟩
    · nlinarith [(ht k).1, (hs k).1]
    · nlinarith [(ht k).2, (hs k).2]
  have hzero : d = 0 := Vec3.normSq_eq_zero.mp
    (le_antisymm (by linarith [h d]) (Vec3.normSq_nonneg d))
  exact ⟨t, ht, (sub_eq_zero.mp hzero).symm⟩

/-! ## Faces -/

/-- Only zero is orthogonal to all generators. -/
def Spans (g : ι → Vec3 ℝ) : Prop := ∀ u : Vec3 ℝ, (∀ k, u.dot (g k) = 0) → u = 0

noncomputable def crossed (g : ι → Vec3 ℝ) (u : Vec3 ℝ) : Finset ι :=
  {k | u.dot (g k) ≠ 0}

theorem mem_crossed {k : ι} : k ∈ crossed g u ↔ u.dot (g k) ≠ 0 := by
  simp [crossed]

theorem excess_nonneg_of_orthogonal (hface : ∀ i j, 0 ≤ r.excess g p ((g i).cross (g j)))
    {i j : ι} (hi : u.dot (g i) = 0) (hj : u.dot (g j) = 0) (hc : (g i).cross (g j) ≠ 0) :
    0 ≤ r.excess g p u := by
  have hn := Vec3.normSq_pos hc
  have halong := Vec3.mul_normSq_cross hi hj
  suffices h : 0 ≤ r.excess g p (u * ((g i).cross (g j)).normSq : Vec3 ℝ) by
    rw [excess_mul hn.le] at h
    exact nonneg_of_mul_nonneg_left h hn
  rw [halong]
  rcases le_total 0 (((g i).cross (g j)).dot u) with h | h
  · rw [excess_mul h]
    exact mul_nonneg (hface i j) h
  · rw [← Vec3.cross_swap_mul_neg, excess_mul (neg_nonneg.mpr h)]
    exact mul_nonneg (hface j i) (neg_nonneg.mpr h)

/-- When all generators orthogonal to `u` are parallel, so are they to a direction across `u`. -/
theorem exists_across (hu : u ≠ 0)
    (hpar : ∀ i j, u.dot (g i) = 0 → u.dot (g j) = 0 → (g i).cross (g j) = 0) :
    ∃ v, v ≠ 0 ∧ u.dot v = 0 ∧ ∀ k, u.dot (g k) = 0 → v.dot (g k) = 0 := by
  obtain ⟨a, ha, hua, hak⟩ : ∃ a : Vec3 ℝ, a ≠ 0 ∧ u.dot a = 0 ∧
      ∀ k, u.dot (g k) = 0 → a.cross (g k) = 0 := by
    by_cases hz : ∃ i, u.dot (g i) = 0 ∧ g i ≠ 0
    · obtain ⟨i, hi, hne⟩ := hz
      exact ⟨g i, hne, hi, fun k hk => hpar i k hi hk⟩
    · push Not at hz
      obtain ⟨a, ha, hua⟩ := Vec3.exists_orthogonal u
      exact ⟨a, ha, hua, fun k hk => by rw [hz k hk, Vec3.cross_zero]⟩
  refine ⟨u.cross a, Vec3.cross_ne_zero hu ha hua, Vec3.dot_cross_left u a, fun k hk => ?_⟩
  rw [Vec3.cross_dot, hak k hk, Vec3.dot_zero]

theorem crossed_ssubset {w : Vec3 ℝ} {k : ι} (hw : ∀ i, u.dot (g i) = 0 → w.dot (g i) = 0)
    (hk : u.dot (g k) ≠ 0) (hwk : w.dot (g k) = 0) : crossed g w ⊂ crossed g u := by
  refine (Finset.ssubset_iff_of_subset fun i hi => ?_).mpr ⟨k, mem_crossed.mpr hk, fun h => ?_⟩
  · exact mem_crossed.mpr fun h => mem_crossed.mp hi (hw i h)
  · exact mem_crossed.mp h hwk

theorem exists_ratios (hspan : Spans g) (hu : u ≠ 0) (hv : v ≠ 0) (huv : u.dot v = 0)
    (hvk : ∀ k, u.dot (g k) = 0 → v.dot (g k) = 0) :
    ∃ ratio : ι → ℝ, (∀ k, v.dot (g k) = u.dot (g k) * ratio k) ∧
      ∃ i ∈ crossed g u, ∃ j ∈ crossed g u, ratio i < ratio j ∧
        ∀ k ∈ crossed g u, ratio i ≤ ratio k ∧ ratio k ≤ ratio j := by
  have hne : (crossed g u).Nonempty := by
    by_contra hempty
    refine hu (hspan u fun k => ?_)
    by_contra hk
    exact hempty ⟨k, mem_crossed.mpr hk⟩
  let ratio : ι → ℝ := fun k => v.dot (g k) / u.dot (g k)
  have hdot : ∀ k, v.dot (g k) = u.dot (g k) * ratio k := fun k => by
    by_cases hk : u.dot (g k) = 0
    · rw [hvk k hk, hk, zero_mul]
    · exact (mul_div_cancel₀ _ hk).symm
  obtain ⟨i, hi, hmin⟩ := Finset.exists_min_image _ ratio hne
  obtain ⟨j, hj, hmax⟩ := Finset.exists_max_image _ ratio hne
  refine ⟨ratio, hdot, i, hi, j, hj, lt_of_le_of_ne (hmin j hj) fun heq => hv ?_,
    fun k hk => ⟨hmin k hk, hmax k hk⟩⟩
  -- With one ratio, `v` would be a multiple of `u`, and it is orthogonal to `u`.
  have hmul : v - (u * ratio i : Vec3 ℝ) = 0 := hspan _ fun k => by
    rw [Vec3.sub_dot, Vec3.mul_dot, hdot k, ← mul_sub]
    by_cases hk : k ∈ crossed g u
    · rw [le_antisymm (heq ▸ hmax k hk) (hmin k hk), sub_self, mul_zero]
    · rw [not_not.mp (mt mem_crossed.mpr hk), zero_mul]
  refine Vec3.normSq_eq_zero.mp ?_
  rw [Vec3.normSq_eq]
  nth_rewrite 1 [sub_eq_zero.mp hmul]
  rw [Vec3.mul_dot, huv, zero_mul]

/-- If no face separates `p` from the generators, no direction does. A direction `u` that is not
normal to a face is a sum of two that cross less generators, found along a `v` across `u`. -/
theorem excess_nonneg_of_faces (hspan : Spans g)
    (hface : ∀ i j, 0 ≤ r.excess g p ((g i).cross (g j))) (u : Vec3 ℝ) : 0 ≤ r.excess g p u := by
  induction hn : (crossed g u).card using Nat.strong_induction_on generalizing u with
  | _ n ih =>
  subst hn
  by_cases hpair : ∃ i j, u.dot (g i) = 0 ∧ u.dot (g j) = 0 ∧ (g i).cross (g j) ≠ 0
  · obtain ⟨i, j, hi, hj, hc⟩ := hpair
    exact excess_nonneg_of_orthogonal hface hi hj hc
  push Not at hpair
  by_cases hu : u = 0
  · rw [hu, excess_zero]
  obtain ⟨v, hv, huv, hvk⟩ := exists_across hu hpair
  obtain ⟨ratio, hdot, i, hi, j, hj, hlt, hbounds⟩ := exists_ratios hspan hu hv huv hvk
  have hlow : ∀ k, (v - (u * ratio i : Vec3 ℝ)).dot (g k) = u.dot (g k) * (ratio k - ratio i) :=
    fun k => by rw [Vec3.sub_dot, Vec3.mul_dot, hdot k, mul_sub]
  have hhigh : ∀ k, ((u * ratio j : Vec3 ℝ) - v).dot (g k) = u.dot (g k) * (ratio j - ratio k) :=
    fun k => by rw [Vec3.sub_dot, Vec3.mul_dot, hdot k, mul_sub]
  have hl : 0 ≤ r.excess g p (v - (u * ratio i : Vec3 ℝ)) :=
    ih _ (Finset.card_lt_card (crossed_ssubset (k := i)
      (fun k hk => by rw [hlow, hk, zero_mul]) (mem_crossed.mp hi)
      (by rw [hlow, sub_self, mul_zero]))) _ rfl
  have hh : 0 ≤ r.excess g p ((u * ratio j : Vec3 ℝ) - v) :=
    ih _ (Finset.card_lt_card (crossed_ssubset (k := j)
      (fun k hk => by rw [hhigh, hk, zero_mul]) (mem_crossed.mp hj)
      (by rw [hhigh, sub_self, mul_zero]))) _ rfl
  have hsum : (u * (ratio j - ratio i) : Vec3 ℝ) =
      (v - (u * ratio i : Vec3 ℝ)) + ((u * ratio j : Vec3 ℝ) - v) := by
    ext <;> simp <;> ring
  have hsplit := congrArg (r.excess g p) hsum
  rw [excess_mul (sub_pos.mpr hlt).le, excess_add fun k => ?_] at hsplit
  · exact nonneg_of_mul_nonneg_left (hsplit ▸ add_nonneg hl hh) (sub_pos.mpr hlt)
  · rw [hlow, hhigh]
    by_cases hk : k ∈ crossed g u
    · have := mul_nonneg (sub_nonneg.mpr (hbounds k hk).1) (sub_nonneg.mpr (hbounds k hk).2)
      nlinarith [mul_nonneg (mul_self_nonneg (u.dot (g k))) this]
    · rw [not_not.mp (mt mem_crossed.mpr hk)]
      simp

theorem achievable_iff (hr : r.min ≤ r.max) (hspan : Spans g) :
    r.Achievable g p ↔ ∀ i j, 0 ≤ r.excess g p ((g i).cross (g j)) :=
  ⟨fun h _ _ => h.excess_nonneg _,
    fun h => achievable_of_excess_nonneg hr (excess_nonneg_of_faces hspan h)⟩

end

end ThrustRange

end Multirotor
