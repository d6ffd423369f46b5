import Multirotor.Proofs.Hover
import Multirotor.Proofs.LinearSystem.LeastSolution
import Multirotor.Sensitivity.Analytic

/-!
# Thrust equations

A static thrust is the least solution of its equations, however it was found,
and its equations have independent rows. So a state that was solved has
analytic sensitivities (`analytic_isOk`), and the rate they give for the
thrust is that of the least solution.
-/

namespace Multirotor

open Matrix

namespace Allocation

section
variable {m n : Nat} {q : Dense ℝ m n} {b : Vector ℝ m} {x : Vector ℝ n}

theorem injective_gram_of_solveSquare? {h : n = m} (hx : solveSquare? q b h = some x) :
    q.gram.Injective := by
  subst h
  rw [solveSquare?_eq] at hx
  have hdet := Dense.injective_iff_det.mp (Dense.injective_of_unique (Dense.solve?_spec hx))
  rw [Dense.injective_iff_det, Dense.toMatrix_gram, det_mul, det_transpose]
  exact mul_ne_zero hdet hdet

theorem injective_gram_of_solveShortest? (hx : solveShortest? q b = some x) :
    q.gram.Injective := by
  obtain ⟨y, hy, -⟩ := Option.map_eq_some_iff.mp hx
  exact Dense.injective_of_unique (Dense.solvePositive?_spec q.symmetric_gram hy)

theorem shortest_leastSolution (h : (q.toMatrix * q.toMatrixᵀ).det ≠ 0) :
    Shortest q b (Vector.ofFn (leastSolution q.toMatrix b.get)) := by
  have hsolves : q.gram.Solves b (Vector.ofFn (leastMultiplier q.toMatrix b.get)) := by
    rw [Dense.solves_iff_mulVec, Dense.toMatrix_gram, funext (Vector.get_ofFn _), leastMultiplier,
      mulVec_mulVec, mul_nonsing_inv _ (isUnit_iff_ne_zero.mpr h), one_mulVec]
  have hx : q.transpose.apply (Vector.ofFn (leastMultiplier q.toMatrix b.get)) =
      Vector.ofFn (leastSolution q.toMatrix b.get) := Dense.vector_ext fun j => by
    rw [Dense.apply_get, Dense.toMatrix_transpose, funext (Vector.get_ofFn _), Vector.get_ofFn,
      leastSolution]
  exact hx ▸ shortest_transpose_apply hsolves

end

/-- The thrust balances the load, and any other that does is longer. -/
structure Least (a : Allocation ℝ) (s : Strategy) (load : Wrench ℝ) (thrust : List ℝ) : Prop where
  length : thrust.length = a.rotorCount
  balances : a.Balances s load thrust
  shortest : ∀ other, other.length = a.rotorCount → a.Balances s load other → other ≠ thrust →
    Allocation.length thrust < Allocation.length other

section
variable {a : Allocation ℝ} {s : Strategy} {load : Wrench ℝ}

theorem Shortest.least {x : Vector ℝ a.rotorCount}
    (hx : Shortest (a.controlled s) (demand s load) x) : a.Least s load x.toList := by
  refine ⟨Vector.length_toList, balances_iff_solves.mpr hx.1, fun other hlen hother hne => ?_⟩
  obtain ⟨f, rfl⟩ := exists_ofFn hlen
  have hf : (Vector.ofFn f).toList = List.ofFn f := Vector.toList_ofFn
  rw [← hf] at hother hne ⊢
  rw [length_toList, length_toList]
  refine Real.sqrt_lt_sqrt (Finset.sum_nonneg fun j _ => sq_nonneg _) ?_
  exact hx.2 _ (balances_iff_solves.mp hother) fun e => hne (congrArg Vector.toList e)

def rows {n : Nat} (s : Strategy) (w : Fin n → Wrench ℝ) :
    Matrix (Fin s.axes.length) (Fin n) ℝ := of fun i j => (w j).get (s.axes.get i)

/-- The rows of the controlled axes are linearly independent. -/
def Independent {n : Nat} (s : Strategy) (w : Fin n → Wrench ℝ) : Prop :=
  (rows s w * (rows s w)ᵀ).det ≠ 0

theorem toMatrix_controlled : (a.controlled s).toMatrix = rows s a.columns.get :=
  Dense.toMatrix_ofFn _

theorem independent_columns : Independent s a.columns.get ↔ (a.controlled s).gram.Injective := by
  rw [Dense.injective_iff_det, Dense.toMatrix_gram, toMatrix_controlled]
  rfl

variable {n : Nat} {w : Fin n → Wrench ℝ} (ha : a.columns = List.ofFn w)
include ha

theorem exists_columns : ∃ hn : n = a.columns.length, w = fun j => a.columns.get (j.cast hn) := by
  have hn : n = a.columns.length := by
    rw [ha, List.length_ofFn]
  subst hn
  exact ⟨rfl, (List.ofFn_injective ((List.ofFn_get _).trans ha)).symm⟩

theorem least_leastSolution (h : Independent s w) :
    a.Least s load (List.ofFn (leastSolution (rows s w) (demand s load).get)) := by
  obtain ⟨rfl, rfl⟩ := exists_columns ha
  have hrows : rows s (fun j => a.columns.get (j.cast rfl)) = (a.controlled s).toMatrix :=
    toMatrix_controlled.symm
  rw [Independent, hrows] at h
  rw [hrows]
  have hleast := (shortest_leastSolution (b := demand s load) h).least
  rwa [Vector.toList_ofFn] at hleast

theorem staticThrust_leastSolution [SingularValues ℝ] {limit : ℝ} {t : StaticThrust ℝ}
    (ht : a.staticThrust s limit load = .ok t) :
    Independent s w ∧
      t.thrust = List.ofFn (leastSolution (rows s w) (demand s load).get) := by
  obtain ⟨rfl, rfl⟩ := exists_columns ha
  -- As many rotors as rows are solved for directly, more of them through the Gram matrix.
  have hinj : (a.controlled s).gram.Injective := by
    obtain ⟨x, -, ⟨hn, hx⟩ | hx⟩ := staticThrust_solution ht
    · exact injective_gram_of_solveSquare? hx
    · exact injective_gram_of_solveShortest? hx
  have hrows : Independent s a.columns.get := independent_columns.mpr hinj
  refine ⟨hrows, ?_⟩
  rw [Independent, ← toMatrix_controlled] at hrows
  obtain ⟨x, hx, htx⟩ := staticThrust_eq_ok ht
  rw [htx, hx.unique (shortest_leastSolution hrows), toMatrix_controlled]
  exact Vector.toList_ofFn

end

end Allocation

/-! ## The rate of the equations -/

theorem ThrustEquations.rate_get {m n : Nat} (e : ThrustEquations ℝ m n) {b : Fin m → ℝ}
    (hinv : e.pseudoInverse.toMatrix =
      e.matrix.toMatrixᵀ * (e.matrix.toMatrix * e.matrix.toMatrixᵀ)⁻¹)
    (hmult : e.multiplier.get = leastMultiplier e.matrix.toMatrix b)
    (hthrust : e.thrust.get = leastSolution e.matrix.toMatrix b) (dq : Dense ℝ m n) :
    (e.rate dq).get = leastSolutionRate e.matrix.toMatrix dq.toMatrix b := by
  have hsub : ∀ {k : Nat} (v w : Vector ℝ k), (Dense.sub v w).get = v.get - w.get := fun v w =>
    funext fun j => Vector.get_ofFn _ j
  have hadd : ∀ {k : Nat} (v w : Vector ℝ k), (Dense.add v w).get = v.get + w.get := fun v w =>
    funext fun j => Vector.get_ofFn _ j
  simp only [rate, hsub, hadd, Dense.apply_get, Dense.toMatrix_transpose, hinv, hmult, hthrust,
    ← mulVec_mulVec, leastSolutionRate]

namespace Robot

variable [SingularValues ℝ] {r : Robot ℝ} {setup : Setup ℝ} {q : Coordinates ℝ}
  {s : HoverState ℝ r.tree.size}

/-- The rate of the thrust is that of the least solution, for wrenches that change as given. -/
def ThrustRate (r : Robot ℝ) (s : HoverState ℝ r.tree.size)
    (e : ThrustEquations ℝ r.config.strategy.axes.length s.allocation.rotorCount) : Prop :=
  ∀ dq, (e.rate dq).get = leastSolutionRate (s.allocation.controlled r.config.strategy).toMatrix
    dq.toMatrix (Allocation.demand r.config.strategy s.gravity).get

theorem analytic_isOk (h : r.Hovers setup q s) : ∃ e, r.thrustEquations? s = some e ∧
    r.analytic s = .ok (.ofRates s (r.tree.motions.map (r.rates s e))) ∧ r.ThrustRate s e := by
  obtain ⟨hrows, hthrust⟩ := Allocation.staticThrust_leastSolution (List.ofFn_get _).symm h.thrust
  rw [← Allocation.toMatrix_controlled] at hthrust
  have hinj := Allocation.independent_columns.mp hrows
  obtain ⟨inverse, hinverse, hmatrix⟩ := Dense.inverse?_spec hinj
  rw [Dense.toMatrix_gram] at hmatrix
  obtain ⟨e, he⟩ : ∃ e, r.thrustEquations? s = some e :=
    ⟨_, Option.map_eq_some_iff.mpr ⟨inverse, hinverse, rfl⟩⟩
  obtain ⟨_, hinverse', rfl⟩ := Option.map_eq_some_iff.mp he
  obtain rfl := Option.some.inj (hinverse.symm.trans hinverse')
  refine ⟨_, he, ?_, fun dq => ThrustEquations.rate_get _ ?_ ?_ ?_ dq⟩
  · simp only [analytic, he]
  · rw [Dense.toMatrix_mul, Dense.toMatrix_transpose, hmatrix]
  · rw [Dense.apply_get, hmatrix]
    rfl
  · ext j
    rw [Vector.get_ofFn, hthrust]
    exact getD_ofFn _ j 0

omit [SingularValues ℝ] in
theorem ThrustRate.toList {e : ThrustEquations ℝ r.config.strategy.axes.length
    s.allocation.rotorCount} (he : r.ThrustRate s e) {n : Nat} {w dw : Fin n → Wrench ℝ}
    (hw : s.allocation.columns = List.ofFn w) :
    (e.rate (Dense.ofFn fun i (j : Fin s.allocation.rotorCount) =>
      ((List.ofFn dw).getD j 0).get (r.config.strategy.axes.get i))).toList =
      List.ofFn (leastSolutionRate (Allocation.rows r.config.strategy w)
        (Allocation.rows r.config.strategy dw)
        (Allocation.demand r.config.strategy s.gravity).get) := by
  obtain ⟨rfl, rfl⟩ := Allocation.exists_columns hw
  have hdw : (of fun i (j : Fin s.allocation.rotorCount) =>
      ((List.ofFn dw).getD j 0).get (r.config.strategy.axes.get i)) =
        Allocation.rows r.config.strategy dw := by
    ext i j
    exact congrArg (fun v : Wrench ℝ => v.get (r.config.strategy.axes.get i)) (getD_ofFn dw j 0)
  rw [Allocation.toList_eq_ofFn, he, Dense.toMatrix_ofFn, hdw, Allocation.toMatrix_controlled]
  rfl

end Robot

end Multirotor
