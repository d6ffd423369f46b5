import Multirotor.Proofs.LinearSystem.Elimination

/-!
# Inverses

A dense matrix is a matrix of the library, with its products, and equations
that determine their unknowns have an inverse there: the one that elimination
finds column by column (`inverse?_spec`).
-/

namespace Multirotor

open Matrix

namespace Dense

variable {m n k : Nat}

def toMatrix (a : Dense ℝ m n) : Matrix (Fin m) (Fin n) ℝ := of a.entry

theorem toMatrix_ofFn (f : Fin m → Fin n → ℝ) : (ofFn f).toMatrix = of f := by
  ext i j
  exact entry_ofFn f i j

theorem toMatrix_transpose (a : Dense ℝ m n) : a.transpose.toMatrix = a.toMatrixᵀ := by
  ext i j
  exact entry_transpose a i j

theorem toMatrix_mul (a : Dense ℝ m n) (b : Dense ℝ n k) :
    (a.mul b).toMatrix = a.toMatrix * b.toMatrix := by
  ext i j
  rw [mul_apply]
  exact entry_mul a b i j

theorem toMatrix_gram (a : Dense ℝ m n) : a.gram.toMatrix = a.toMatrix * a.toMatrixᵀ := by
  rw [gram, toMatrix_mul, toMatrix_transpose]

theorem apply_get (a : Dense ℝ m n) (v : Vector ℝ n) : (a.apply v).get = a.toMatrix *ᵥ v.get := by
  ext i
  exact get_apply a v i

theorem solves_iff_mulVec {a : Dense ℝ m n} {b : Vector ℝ m} {x : Vector ℝ n} :
    a.Solves b x ↔ a.toMatrix *ᵥ x.get = b.get := funext_iff.symm

theorem injective_iff_det {a : Dense ℝ n n} : a.Injective ↔ a.toMatrix.det ≠ 0 := by
  rw [Ne, ← exists_mulVec_eq_zero_iff]
  constructor
  · rintro h ⟨v, hv, hz⟩
    refine hv (funext fun j => ?_)
    have hcols : ∀ i, ∑ l, a.entry i l * (Vector.ofFn v).get l = 0 := fun i => by
      simp only [Vector.get_ofFn]
      exact congrFun hz i
    exact (Vector.get_ofFn v j).symm.trans (h (Vector.ofFn v) hcols j)
  · intro h y hy j
    by_contra hne
    exact h ⟨y.get, fun e => hne (congrFun e j), funext hy⟩

theorem inverse?_spec {a : Dense ℝ n n} (h : a.Injective) :
    ∃ b, a.inverse? = some b ∧ b.toMatrix = a.toMatrix⁻¹ := by
  -- Each column solves the equations of one unit vector, which makes a right inverse.
  choose col hcol using fun j => solve?_isSome h (unit j)
  have hrun : (Vector.finRange n).mapM (fun j => solve? a (unit j)) =
      some ((Vector.finRange n).map col) := by
    simp only [hcol]
    exact Vector.mapM_pure (m := Option) col
  refine ⟨transpose ((Vector.finRange n).map col), ?_, (inv_eq_right_inv ?_).symm⟩
  · rw [inverse?, hrun]
    rfl
  · rw [toMatrix_transpose]
    ext i j
    have hsolves := (solve?_spec (hcol j) _).mpr rfl i
    rw [mul_apply, one_apply]
    simp only [unit, Vector.get_ofFn] at hsolves
    rw [← hsolves]
    refine Finset.sum_congr rfl fun l _ => congrArg (a.entry i l * ·) ?_
    simp [toMatrix, entry, Vector.get]
    rfl

end Dense

end Multirotor
