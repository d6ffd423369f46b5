import Mathlib.Analysis.InnerProductSpace.SingularValues
import Mathlib.LinearAlgebra.Matrix.Rank
import Multirotor.Proofs.LinearSystem.Inverse
import Multirotor.LinearSystem.SingularValues

/-!
# Exact singular values

Rank and condition number are read off exact singular values in whatever
order they come (`rankAndCondition_perm`). They follow from the products of
the columns alone, so a rotation of the rows changes neither
(`rankAndCondition_congr`). Where the rank is the number of rows, the rows
are independent (`injective_gram_of_rank`). How much a matrix stretches
vectors bounds its condition number (`Stretches.rankAndCondition`).
-/

namespace Multirotor

open Matrix

theorem adjoint_comp_toEuclideanLin {m n : Nat} (a : Matrix (Fin m) (Fin n) ℝ) :
    a.toEuclideanLin.adjoint ∘ₗ a.toEuclideanLin = (aᵀ * a).toEuclideanLin := by
  rw [← toEuclideanLin_conjTranspose_eq_adjoint, conjTranspose_eq_transpose_of_trivial]
  exact (toLpLin_mul 2 2 2 aᵀ a).symm

theorem singularValues_congr {m n : Nat} {a b : Matrix (Fin m) (Fin n) ℝ}
    (h : aᵀ * a = bᵀ * b) : a.toEuclideanLin.singularValues = b.toEuclideanLin.singularValues := by
  have hsame := (adjoint_comp_toEuclideanLin a).trans
    ((congrArg _ h).trans (adjoint_comp_toEuclideanLin b).symm)
  ext i
  by_cases hi : i < Module.finrank ℝ (EuclideanSpace ℝ (Fin n))
  · rw [LinearMap.singularValues_of_lt _ rfl hi, LinearMap.singularValues_of_lt _ rfl hi]
    congr 2
  · rw [LinearMap.singularValues_of_finrank_le _ (not_lt.mp hi),
      LinearMap.singularValues_of_finrank_le _ (not_lt.mp hi)]

/-- Columns that are orthogonal and of one length have that length as their only singular value. -/
theorem singularValues_of_orthogonal {m n : Nat} {a : Matrix (Fin m) (Fin n) ℝ} {c : ℝ}
    (h : aᵀ * a = c • 1) {i : Nat} (hi : i < n) : a.toEuclideanLin.singularValues i = √c := by
  have heigen := a.toEuclideanLin.hasEigenvalue_adjoint_comp_self_sq_singularValues
    (n := i) (by simpa using hi)
  rw [adjoint_comp_toEuclideanLin, h] at heigen
  obtain ⟨v, hv, hne⟩ := heigen.exists_hasEigenvector
  have hscaled : (a.toEuclideanLin.singularValues i ^ 2) • v = c • v := by
    refine (Module.End.mem_eigenspace_iff.mp hv).symm.trans ?_
    simp
  have hsq : a.toEuclideanLin.singularValues i ^ 2 = c := smul_left_injective ℝ hne hscaled
  rw [← hsq, Real.sqrt_sq (LinearMap.singularValues_nonneg _ _)]

/-- Some vector is stretched by the singular value. -/
theorem exists_norm_toEuclideanLin {m n : Nat} (a : Matrix (Fin m) (Fin n) ℝ) {i : Nat} (hi : i < n) :
    ∃ v : EuclideanSpace ℝ (Fin n), v ≠ 0 ∧
      ‖a.toEuclideanLin v‖ ^ 2 = a.toEuclideanLin.singularValues i ^ 2 * ‖v‖ ^ 2 := by
  have heigen := a.toEuclideanLin.hasEigenvalue_adjoint_comp_self_sq_singularValues
    (n := i) (by simpa using hi)
  obtain ⟨v, hv, hne⟩ := heigen.exists_hasEigenvector
  refine ⟨v, hne, ?_⟩
  rw [← real_inner_self_eq_norm_sq, ← LinearMap.adjoint_inner_left, ← LinearMap.comp_apply,
    Module.End.mem_eigenspace_iff.mp hv, real_inner_smul_left, real_inner_self_eq_norm_sq]
  rfl

namespace SingularValues

/-- The singular values of the library, in any order. -/
def Exact (values : SingularValues ℝ) : Prop :=
  ∀ {m n : Nat} (a : Dense ℝ m n), (values.singularValues a).Perm
    (List.ofFn fun i : Fin (min m n) => a.toMatrix.toEuclideanLin.singularValues i)

/-- The singular values from the largest down. -/
@[reducible] noncomputable def descending : SingularValues ℝ where
  singularValues {m n} a :=
    List.ofFn fun i : Fin (min m n) => a.toMatrix.toEuclideanLin.singularValues i

theorem exact_descending : descending.Exact := fun _ => .refl _

end SingularValues

namespace Dense

/-! ## Order -/

theorem foldl_larger_le_iff {bound : ℝ} {xs : List ℝ} {x : ℝ} :
    xs.foldl Scalar.larger x ≤ bound ↔ ∀ y ∈ x :: xs, y ≤ bound := by
  induction xs generalizing x with
  | nil => simp
  | cons y xs ih => simp [ih, Scalar.larger_real, and_assoc]

theorem le_foldl_smaller_iff_forall {bound : ℝ} {xs : List ℝ} {x : ℝ} :
    bound ≤ xs.foldl Scalar.smaller x ↔ ∀ y ∈ x :: xs, bound ≤ y := by
  rw [Scalar.le_foldl_smaller_iff, List.forall_mem_cons]

/-- The matrix stretches no vector by less than `low` or by more than `high`. -/
structure Stretches {m n : Nat} (a : Dense ℝ m n) (low high : ℝ) : Prop where
  low_pos : 0 < low
  high_pos : 0 < high
  lower : ∀ v : Fin n → ℝ, low ^ 2 * ∑ j, v j ^ 2 ≤ ∑ i, (∑ j, a.entry i j * v j) ^ 2
  upper : ∀ v : Fin n → ℝ, ∑ i, (∑ j, a.entry i j * v j) ^ 2 ≤ high ^ 2 * ∑ j, v j ^ 2

theorem norm_sq_toEuclideanLin {m n : Nat} (a : Dense ℝ m n) (v : EuclideanSpace ℝ (Fin n)) :
    ‖a.toMatrix.toEuclideanLin v‖ ^ 2 = ∑ i, (∑ j, a.entry i j * v j) ^ 2 := by
  rw [EuclideanSpace.real_norm_sq_eq]
  rfl

/-! ## Rank and condition number -/

section
variable [SingularValues ℝ] {m n : Nat} {a b : Dense ℝ m n}

theorem rankAndCondition_perm
    (h : (SingularValues.singularValues a).Perm (SingularValues.singularValues b)) :
    a.rankAndCondition = b.rankAndCondition := by
  unfold rankAndCondition
  rw [isFinite_real a, isFinite_real b]
  generalize SingularValues.singularValues a = xs at h ⊢
  generalize SingularValues.singularValues b = ys at h ⊢
  cases xs with
  | nil => rw [h.nil_eq]
  | cons x xs =>
    cases ys with
    | nil => exact absurd h.eq_nil (List.cons_ne_nil x xs)
    | cons y ys =>
      have htop : xs.foldl Scalar.larger x = ys.foldl Scalar.larger y :=
        eq_of_forall_ge_iff fun bound => by
          simp only [foldl_larger_le_iff, h.mem_iff]
      have hbottom : xs.foldl Scalar.smaller x = ys.foldl Scalar.smaller y :=
        eq_of_forall_le_iff fun bound => by
          simp only [le_foldl_smaller_iff_forall, h.mem_iff]
      simp only [if_true, htop, hbottom, h.countP_eq]

/-- Values within bounds that are near enough to each other are all of the rank. -/
theorem rankAndCondition_of_bounds {low high : ℝ} (hpos : 0 < low)
    (hsize : high * (max m n : Nat) * roundoff < low) (hne : SingularValues.singularValues a ≠ [])
    (h : ∀ x ∈ SingularValues.singularValues a, low ≤ x ∧ x ≤ high) :
    a.rankAndCondition.1 = (SingularValues.singularValues a).length ∧
      a.rankAndCondition.2 ≤ high / low := by
  unfold rankAndCondition
  rw [isFinite_real, if_pos rfl]
  generalize SingularValues.singularValues a = xs at h hne ⊢
  cases xs with
  | nil => exact absurd rfl hne
  | cons x xs =>
    have htop : xs.foldl Scalar.larger x ≤ high := foldl_larger_le_iff.mpr fun y hy => (h y hy).2
    have hbottom : low ≤ xs.foldl Scalar.smaller x :=
      le_foldl_smaller_iff_forall.mpr fun y hy => (h y hy).1
    have hround : (0 : ℝ) ≤ roundoff := by
      norm_num [roundoff]
    have htol : xs.foldl Scalar.larger x * ((max m n : Nat) : ℝ) * roundoff < low :=
      (mul_le_mul_of_nonneg_right (mul_le_mul_of_nonneg_right htop (Nat.cast_nonneg _))
        hround).trans_lt hsize
    refine ⟨List.countP_eq_length.mpr fun y hy => decide_eq_true (htol.trans_le (h y hy).1), ?_⟩
    dsimp only
    rw [if_pos (hpos.trans_le hbottom)]
    have hx := h x List.mem_cons_self
    exact div_le_div₀ (hpos.le.trans (hx.1.trans hx.2)) htop hpos hbottom

/-! ## Exact values -/

variable (hv : SingularValues.Exact ‹SingularValues ℝ›)
include hv

theorem rankAndCondition_congr (h : a.toMatrixᵀ * a.toMatrix = b.toMatrixᵀ * b.toMatrix) :
    a.rankAndCondition = b.rankAndCondition := by
  refine rankAndCondition_perm ((hv a).trans ?_)
  rw [singularValues_congr h]
  exact (hv b).symm

theorem nonneg_of_mem_singularValues {x : ℝ} (hx : x ∈ SingularValues.singularValues a) :
    0 ≤ x := by
  obtain ⟨i, rfl⟩ := List.mem_ofFn.mp ((hv a).mem_iff.mp hx)
  exact LinearMap.singularValues_nonneg _ _

/-- The rank counts positive values, and there are no more values than rows. -/
theorem pos_of_rank (hm : m ≠ 0) (h : m ≤ a.rankAndCondition.1) :
    m ≤ n ∧ ∀ x ∈ SingularValues.singularValues a, 0 < x := by
  have hnonneg : ∀ x ∈ SingularValues.singularValues a, 0 ≤ x := fun x =>
    nonneg_of_mem_singularValues hv
  have hlength := (hv a).length_eq
  rw [List.length_ofFn] at hlength
  unfold rankAndCondition at h
  rw [isFinite_real, if_pos rfl] at h
  generalize SingularValues.singularValues a = xs at h hnonneg hlength ⊢
  cases xs with
  | nil => exact absurd h (by simpa using hm)
  | cons x xs =>
    dsimp only at h
    have hround : (0 : ℝ) ≤ roundoff := by
      norm_num [roundoff]
    have htop : 0 ≤ xs.foldl Scalar.larger x :=
      (hnonneg x List.mem_cons_self).trans (foldl_larger_le_iff.mp le_rfl x List.mem_cons_self)
    have htol : 0 ≤ xs.foldl Scalar.larger x * ((max m n : Nat) : ℝ) * roundoff :=
      mul_nonneg (mul_nonneg htop (Nat.cast_nonneg _)) hround
    generalize xs.foldl Scalar.larger x * ((max m n : Nat) : ℝ) * roundoff = tolerance at h htol
    have hcount := List.countP_le_length (p := fun x => decide (tolerance < x)) (l := x :: xs)
    have hmn : min m n ≤ m := min_le_left m n
    have hfull : (x :: xs).countP (fun x => decide (tolerance < x)) = (x :: xs).length := by
      omega
    have hall := List.countP_eq_length.mp hfull
    refine ⟨by omega, fun y hy => htol.trans_lt (of_decide_eq_true (hall y hy))⟩

theorem injective_gram_of_rank (h : m ≤ a.rankAndCondition.1) : a.gram.Injective := by
  by_cases hm : m = 0
  · subst hm
    exact fun y _ j => j.elim0
  obtain ⟨hmn, hpos⟩ := pos_of_rank hv hm h
  have hlast : 0 < a.toMatrix.toEuclideanLin.singularValues (m - 1) := by
    refine hpos _ ((hv a).mem_iff.mpr (List.mem_ofFn.mpr ⟨⟨m - 1, ?_⟩, rfl⟩))
    rw [min_eq_left hmn]
    omega
  have hrank : m ≤ a.toMatrix.rank := by
    rw [LinearMap.singularValues_pos_iff_lt_finrank_range] at hlast
    rw [rank_eq_finrank_range_toLin a.toMatrix (EuclideanSpace.basisFun (Fin m) ℝ).toBasis
      (EuclideanSpace.basisFun (Fin n) ℝ).toBasis]
    exact Nat.le_of_pred_lt hlast
  have hfull : Module.finrank ℝ (LinearMap.range a.gram.toMatrix.mulVecLin) = m := by
    refine le_antisymm a.gram.toMatrix.rank_le_width ?_
    rw [toMatrix_gram]
    exact hrank.trans (rank_self_mul_transpose a.toMatrix).ge
  have hsurjective : Function.Surjective a.gram.toMatrix.mulVecLin :=
    LinearMap.range_eq_top.mp (Submodule.eq_top_of_finrank_eq (by simpa using hfull))
  have hinjective := LinearMap.injective_iff_surjective.mpr hsurjective
  intro y hy j
  have hzero : y.get = 0 := hinjective ((funext hy).trans (map_zero a.gram.toMatrix.mulVecLin).symm)
  exact congrFun hzero j

/-! ## Matrices between two bounds -/

theorem Stretches.bounds {low high : ℝ} (h : a.Stretches low high) {x : ℝ}
    (hx : x ∈ SingularValues.singularValues a) : low ≤ x ∧ x ≤ high := by
  obtain ⟨i, rfl⟩ := List.mem_ofFn.mp ((hv a).mem_iff.mp hx)
  obtain ⟨v, hne, hstretch⟩ := exists_norm_toEuclideanLin a.toMatrix
    (i.isLt.trans_le (min_le_right m n))
  have hpos : 0 < ‖v‖ ^ 2 := pow_pos (norm_pos_iff.mpr hne) 2
  have hnonneg := LinearMap.singularValues_nonneg a.toMatrix.toEuclideanLin i
  have hlower := h.lower v
  have hupper := h.upper v
  rw [← norm_sq_toEuclideanLin, hstretch, ← EuclideanSpace.real_norm_sq_eq] at hlower hupper
  have hlow := le_of_mul_le_mul_right hlower hpos
  have hhigh := le_of_mul_le_mul_right hupper hpos
  exact ⟨(pow_le_pow_iff_left₀ h.low_pos.le hnonneg two_ne_zero).mp hlow,
    (pow_le_pow_iff_left₀ hnonneg h.high_pos.le two_ne_zero).mp hhigh⟩

/-- A matrix that stretches no vector too little or too much has full rank. -/
theorem Stretches.rankAndCondition {low high : ℝ} (h : a.Stretches low high) (hm : 0 < min m n)
    (hsize : high * (max m n : Nat) * roundoff < low) :
    a.rankAndCondition.1 = min m n ∧ a.rankAndCondition.2 ≤ high / low := by
  have hlength : (SingularValues.singularValues a).length = min m n :=
    (hv a).length_eq.trans List.length_ofFn
  obtain ⟨hrank, hcondition⟩ := rankAndCondition_of_bounds h.low_pos hsize
    (List.ne_nil_of_length_pos (hlength ▸ hm)) fun x => h.bounds hv
  exact ⟨hrank.trans hlength, hcondition⟩

end

end Dense

end Multirotor
