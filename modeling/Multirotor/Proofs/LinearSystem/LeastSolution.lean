import Multirotor.Proofs.LinearSystem.Inverse

/-!
# The rate of a least solution

Where the rows of a matrix are independent, `qᵀ (q qᵀ)⁻¹ b` solves its
equations. It changes with the matrix at a rate with two terms: how the
transpose turns, and what the pseudoinverse takes back so that the equations
go on to hold (`hasDerivAt_leastSolution`).
-/

namespace Multirotor

open Matrix

section
variable {m n k : Nat}

/-! ## Rates of products -/

section
variable {q : ℝ → Matrix (Fin m) (Fin n) ℝ} {dq : Matrix (Fin m) (Fin n) ℝ}
  (hq : ∀ i j, HasDerivAt (fun t => q t i j) (dq i j) 0)
include hq

theorem hasDerivAt_mulVec {x : ℝ → Fin n → ℝ} {dx : Fin n → ℝ}
    (hx : ∀ j, HasDerivAt (fun t => x t j) (dx j) 0) (i : Fin m) :
    HasDerivAt (fun t => (q t *ᵥ x t) i) ((dq *ᵥ x 0 + q 0 *ᵥ dx) i) 0 := by
  have h := HasDerivAt.fun_sum fun j (_ : j ∈ Finset.univ) => (hq i j).mul (hx j)
  exact h.congr_deriv Finset.sum_add_distrib

theorem hasDerivAt_gram (i j : Fin m) :
    HasDerivAt (fun t => (q t * (q t)ᵀ) i j) ((dq * (q 0)ᵀ + q 0 * dqᵀ) i j) 0 := by
  have h := HasDerivAt.fun_sum fun l (_ : l ∈ Finset.univ) => (hq i l).mul (hq j l)
  exact h.congr_deriv Finset.sum_add_distrib

end

/-! ## Rates of solutions -/

section
variable {a : ℝ → Matrix (Fin n) (Fin n) ℝ}

theorem differentiableAt_det (ha : ∀ i j, DifferentiableAt ℝ (fun t => a t i j) 0) :
    DifferentiableAt ℝ (fun t => (a t).det) 0 := by
  simp only [det_apply]
  exact .fun_sum fun σ _ => (DifferentiableAt.fun_finsetProd fun i _ => ha (σ i) i).const_smul _

/-- By Cramer's rule. -/
theorem inv_mulVec_apply (a : Matrix (Fin n) (Fin n) ℝ) (b : Fin n → ℝ) (i : Fin n) :
    (a⁻¹ *ᵥ b) i = a.det⁻¹ * (a.updateCol i b).det := by
  rw [inv_def, Ring.inverse_eq_inv', smul_mulVec, ← cramer_eq_adjugate_mulVec, Pi.smul_apply,
    cramer_apply, smul_eq_mul]

theorem differentiableAt_inv_mulVec (ha : ∀ i j, DifferentiableAt ℝ (fun t => a t i j) 0)
    (hdet : (a 0).det ≠ 0) (b : Fin n → ℝ) (i : Fin n) :
    DifferentiableAt ℝ (fun t => ((a t)⁻¹ *ᵥ b) i) 0 := by
  simp only [inv_mulVec_apply]
  refine ((differentiableAt_det ha).inv hdet).mul (differentiableAt_det fun j l => ?_)
  simp only [updateCol_apply]
  split
  · exact differentiableAt_const _
  · exact ha j l

variable {da : Matrix (Fin n) (Fin n) ℝ} (ha : ∀ i j, HasDerivAt (fun t => a t i j) (da i j) 0)
  (hdet : (a 0).det ≠ 0)
include ha hdet

theorem eventually_det_ne_zero : ∀ᶠ t in nhds 0, (a t).det ≠ 0 :=
  (differentiableAt_det fun i j => (ha i j).differentiableAt).continuousAt.eventually_ne hdet

/-- The equations hold next to zero as well, so that the rates of their two factors cancel. -/
theorem hasDerivAt_inv_mulVec (b : Fin n → ℝ) (i : Fin n) :
    HasDerivAt (fun t => ((a t)⁻¹ *ᵥ b) i) (-((a 0)⁻¹ *ᵥ (da *ᵥ ((a 0)⁻¹ *ᵥ b))) i) 0 := by
  -- Cramer's rule says only that there is a rate; which one it is follows from the equations.
  have hy := fun j => (differentiableAt_inv_mulVec (fun i j => (ha i j).differentiableAt) hdet b
    j).hasDerivAt
  set dy := fun j => deriv (fun t => ((a t)⁻¹ *ᵥ b) j) 0 with hdy
  have hsolves : ∀ᶠ t in nhds 0, a t *ᵥ ((a t)⁻¹ *ᵥ b) = b := by
    filter_upwards [eventually_det_ne_zero ha hdet] with t ht
    rw [mulVec_mulVec, mul_nonsing_inv _ (isUnit_iff_ne_zero.mpr ht), one_mulVec]
  have hzero : da *ᵥ ((a 0)⁻¹ *ᵥ b) + a 0 *ᵥ dy = 0 := by
    ext j
    have hconst : HasDerivAt (fun t => (a t *ᵥ ((a t)⁻¹ *ᵥ b)) j) 0 0 :=
      (hasDerivAt_const 0 (b j)).congr_of_eventuallyEq (hsolves.mono fun t ht => congrFun ht j)
    exact (hasDerivAt_mulVec ha hy j).unique hconst
  have hrate : dy = -((a 0)⁻¹ *ᵥ (da *ᵥ ((a 0)⁻¹ *ᵥ b))) := by
    rw [eq_neg_of_add_eq_zero_left hzero, mulVec_neg, neg_neg, mulVec_mulVec,
      nonsing_inv_mul _ (isUnit_iff_ne_zero.mpr hdet), one_mulVec]
  exact (hy i).congr_deriv (congrFun hrate i)

end

/-! ## Least solutions -/

noncomputable def leastMultiplier (q : Matrix (Fin m) (Fin n) ℝ) (b : Fin m → ℝ) : Fin m → ℝ :=
  (q * qᵀ)⁻¹ *ᵥ b

noncomputable def leastSolution (q : Matrix (Fin m) (Fin n) ℝ) (b : Fin m → ℝ) : Fin n → ℝ :=
  qᵀ *ᵥ leastMultiplier q b

/-- The rate of the least solution while the matrix changes at rate `dq`. -/
noncomputable def leastSolutionRate (q dq : Matrix (Fin m) (Fin n) ℝ) (b : Fin m → ℝ) : Fin n → ℝ :=
  dqᵀ *ᵥ leastMultiplier q b -
    qᵀ *ᵥ ((q * qᵀ)⁻¹ *ᵥ (dq *ᵥ leastSolution q b + q *ᵥ (dqᵀ *ᵥ leastMultiplier q b)))

section
variable {q : Matrix (Fin m) (Fin n) ℝ} (h : (q * qᵀ).det ≠ 0)
include h

theorem mulVec_transpose_inv (v : Fin m → ℝ) : q *ᵥ (qᵀ *ᵥ ((q * qᵀ)⁻¹ *ᵥ v)) = v := by
  rw [mulVec_mulVec, mulVec_mulVec, mul_nonsing_inv _ (isUnit_iff_ne_zero.mpr h), one_mulVec]

/-- To first order the equations go on to hold. -/
theorem mulVec_leastSolutionRate (dq : Matrix (Fin m) (Fin n) ℝ) (b : Fin m → ℝ) :
    dq *ᵥ leastSolution q b + q *ᵥ leastSolutionRate q dq b = 0 := by
  rw [leastSolutionRate, mulVec_sub, mulVec_transpose_inv h]
  abel

end

section
variable (q : Matrix (Fin m) (Fin n) ℝ) (b : Fin m → ℝ)

theorem leastSolutionRate_add (d d' : Matrix (Fin m) (Fin n) ℝ) :
    leastSolutionRate q (d + d') b = leastSolutionRate q d b + leastSolutionRate q d' b := by
  simp only [leastSolutionRate, transpose_add, add_mulVec, mulVec_add]
  abel

theorem leastSolutionRate_smul (t : ℝ) (d : Matrix (Fin m) (Fin n) ℝ) :
    leastSolutionRate q (t • d) b = t • leastSolutionRate q d b := by
  simp only [leastSolutionRate, transpose_smul, smul_mulVec, mulVec_smul, ← smul_add, ← smul_sub]

variable {q} in
/-- Equations that are only combined among themselves follow their right-hand side. -/
theorem leastSolutionRate_mul (h : (q * qᵀ).det ≠ 0) (z : Matrix (Fin m) (Fin m) ℝ) :
    leastSolutionRate q (z * q) b = -leastSolution q (z *ᵥ b) := by
  have hx : q *ᵥ leastSolution q b = b := mulVec_transpose_inv h b
  have hgram : ∀ y, (q * qᵀ)⁻¹ *ᵥ (q *ᵥ (qᵀ *ᵥ y)) = y := fun y => by
    rw [mulVec_mulVec y q, mulVec_mulVec, nonsing_inv_mul _ (isUnit_iff_ne_zero.mpr h), one_mulVec]
  rw [leastSolutionRate, transpose_mul, ← mulVec_mulVec, ← mulVec_mulVec, hx, mulVec_add,
    mulVec_add, hgram, leastSolution, leastMultiplier]
  abel

end

theorem hasDerivAt_leastSolution {q : ℝ → Matrix (Fin m) (Fin n) ℝ}
    {dq : Matrix (Fin m) (Fin n) ℝ} (hq : ∀ i j, HasDerivAt (fun t => q t i j) (dq i j) 0)
    (hdet : (q 0 * (q 0)ᵀ).det ≠ 0) (b : Fin m → ℝ) (j : Fin n) :
    HasDerivAt (fun t => leastSolution (q t) b j) (leastSolutionRate (q 0) dq b j) 0 := by
  have hy := hasDerivAt_inv_mulVec (hasDerivAt_gram hq) hdet b
  have htranspose : ∀ i j, HasDerivAt (fun t => (q t)ᵀ i j) (dqᵀ i j) 0 := fun i j => hq j i
  have hsplit : (dq * (q 0)ᵀ + q 0 * dqᵀ) *ᵥ leastMultiplier (q 0) b =
      dq *ᵥ leastSolution (q 0) b + q 0 *ᵥ (dqᵀ *ᵥ leastMultiplier (q 0) b) := by
    rw [add_mulVec, ← mulVec_mulVec, ← mulVec_mulVec, leastSolution]
  refine (hasDerivAt_mulVec htranspose hy j).congr_deriv (congrFun ?_ j)
  change _ + (q 0)ᵀ *ᵥ -((q 0 * (q 0)ᵀ)⁻¹ *ᵥ ((dq * (q 0)ᵀ + q 0 * dqᵀ) *ᵥ leastMultiplier (q 0) b)) = _
  rw [hsplit, mulVec_neg, ← sub_eq_add_neg]
  rfl

end

end Multirotor
