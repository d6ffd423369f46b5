import Multirotor.Proofs.LinearSystem.SingularValues
import Multirotor.Proofs.Sensitivity.ThrustEquations

/-!
# Determined thrusts

With exact singular values the static thrust is refused for its three stated
reasons only: too few rotors, too low a rank, too large a condition number.
Otherwise neither way of solving its equations fails (`staticThrust_of_allowed`),
since the rows are independent then.
-/

namespace Multirotor

open Matrix

namespace Allocation

section
variable {m n : Nat} {q : Dense ℝ m n}

theorem solveShortest?_isSome (h : q.gram.Injective) (b : Vector ℝ m) :
    ∃ x, solveShortest? q b = some x := by
  obtain ⟨y, hy⟩ := Dense.solvePositive?_isSome q.symmetric_gram (Dense.definite_gram h) b
  exact ⟨_, Option.map_eq_some_iff.mpr ⟨y, hy, rfl⟩⟩

theorem solveSquare?_isSome (hn : n = m) (h : q.gram.Injective) (b : Vector ℝ m) :
    ∃ x, solveSquare? q b hn = some x := by
  subst hn
  have hdet := Dense.injective_iff_det.mp h
  rw [Dense.toMatrix_gram, det_mul, det_transpose] at hdet
  rw [solveSquare?_eq]
  exact Dense.solve?_isSome (Dense.injective_iff_det.mpr (left_ne_zero_of_mul hdet)) b

end

section
variable [SingularValues ℝ] (a : Allocation ℝ) (s : Strategy) (limit : ℝ)

/-- The stated reasons for refusing a static thrust. -/
def Refused : Prop :=
  a.rotorCount < s.axes.length ∨ (a.controlled s).rankAndCondition.1 < s.axes.length ∨
    limit < (a.controlled s).rankAndCondition.2

noncomputable def refusal : ModelError ℝ :=
  .underconstrained (a.controlled s).rankAndCondition.1 s.axes.length
    (a.controlled s).rankAndCondition.2

variable {a s limit}

theorem staticThrust_of_refused (h : a.Refused s limit) (load : Wrench ℝ) :
    a.staticThrust s limit load = .error (a.refusal s) := by
  unfold staticThrust
  exact if_pos h

theorem injective_gram_of_allowed (hv : SingularValues.Exact ‹SingularValues ℝ›)
    (h : ¬a.Refused s limit) : (a.controlled s).gram.Injective :=
  Dense.injective_gram_of_rank hv (not_lt.mp fun hlt => h (.inr (.inl hlt)))

theorem staticThrust_of_allowed (hv : SingularValues.Exact ‹SingularValues ℝ›)
    (h : ¬a.Refused s limit) (load : Wrench ℝ) : ∃ thrust, a.Least s load thrust ∧
      a.staticThrust s limit load = .ok ⟨thrust, (a.controlled s).rankAndCondition.2⟩ := by
  have hgram := injective_gram_of_allowed hv h
  unfold Refused at h
  unfold staticThrust
  dsimp only
  rw [if_neg h]
  by_cases hn : a.rotorCount = s.axes.length
  · obtain ⟨x, hx⟩ := solveSquare?_isSome hn hgram (demand s load)
    rw [dif_pos hn, hx]
    exact ⟨_, (solveSquare?_shortest hx).least, rfl⟩
  · obtain ⟨x, hx⟩ := solveShortest?_isSome hgram (demand s load)
    rw [dif_neg hn, hx]
    exact ⟨_, (solveShortest?_shortest hx).least, rfl⟩

end

theorem Least.unique {a : Allocation ℝ} {s : Strategy} {load : Wrench ℝ} {x y : List ℝ}
    (hx : a.Least s load x) (hy : a.Least s load y) : x = y := by
  by_contra hne
  exact lt_asymm (hx.shortest y hy.length hy.balances (Ne.symm hne))
    (hy.shortest x hx.length hx.balances hne)

end Allocation

end Multirotor
