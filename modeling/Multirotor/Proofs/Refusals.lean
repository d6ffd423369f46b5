import Multirotor.Proofs.Requests
import Multirotor.Proofs.Yaw

/-!
# Where an update can fail

In exact arithmetic a static thrust is refused for its stated reasons and for
no other: where it is not refused, each of the systems that stand behind it
has a solution (`refusesExactly`). A state that was solved has independent
rows, so its sensitivities exist, and an update fails only where it reads the
values or solves for the state (`update_eq_error_iff`).
-/

namespace Multirotor

namespace Dense

/-- `c` is the largest singular value over the smallest, and all of them are positive. -/
def IsCondition [SingularValues ℝ] {m n : Nat} (a : Dense ℝ m n) (c : ℝ) : Prop :=
  ∃ top ∈ SingularValues.singularValues a, ∃ bottom ∈ SingularValues.singularValues a,
    0 < bottom ∧ (∀ x ∈ SingularValues.singularValues a, bottom ≤ x ∧ x ≤ top) ∧ c = top / bottom

/-- The condition number of a matrix of full rank is never the value that stands for none. -/
theorem isCondition_of_rank [SingularValues ℝ] (hv : SingularValues.Exact ‹SingularValues ℝ›)
    {m n : Nat} {a : Dense ℝ m n} (hm : m ≠ 0) (h : m ≤ a.rankAndCondition.1) :
    a.IsCondition a.rankAndCondition.2 := by
  have hpos := (pos_of_rank hv hm h).2
  unfold IsCondition
  unfold rankAndCondition at h ⊢
  rw [isFinite_real, if_pos rfl] at h ⊢
  generalize SingularValues.singularValues a = xs at h hpos ⊢
  cases xs with
  | nil => exact absurd h (by simpa using hm)
  | cons x xs =>
    have hbottom := Scalar.foldl_smaller_mem xs x
    refine ⟨_, Scalar.foldl_larger_mem xs x, _, hbottom, hpos _ hbottom, fun y hy => ⟨?_, ?_⟩,
      if_pos (hpos _ hbottom)⟩
    · exact le_foldl_smaller_iff_forall.mp le_rfl y hy
    · exact foldl_larger_le_iff.mp le_rfl y hy

end Dense

/-! ## Static thrusts -/

namespace Allocation

variable [SingularValues ℝ]

/-- Too few rotors, too low a rank or too large a condition number refuse a static thrust, and
otherwise none of its systems can be without a solution. -/
structure RefusesExactly (a : Allocation ℝ) (s : Strategy) (limit : ℝ) : Prop where
  error_iff : ∀ load e,
    a.staticThrust s limit load = .error e ↔ a.Refused s limit ∧ e = a.refusal s
  /-- Unless the rank refuses already, the limit is compared with a condition number. -/
  condition : s.axes.length ≤ (a.controlled s).rankAndCondition.1 →
    (a.controlled s).IsCondition (a.controlled s).rankAndCondition.2
  elimination : ¬a.Refused s limit → ∀ (h : a.rotorCount = s.axes.length) b,
    ∃ x, solveSquare? (a.controlled s) b h = some x
  factorisation : ¬a.Refused s limit → ∀ b,
    ∃ y, Dense.solvePositive? (a.controlled s).gram b = some y

theorem refusesExactly (hv : SingularValues.Exact ‹SingularValues ℝ›) (a : Allocation ℝ)
    (s : Strategy) (limit : ℝ) : a.RefusesExactly s limit where
  error_iff load e := by
    by_cases h : a.Refused s limit
    · rw [staticThrust_of_refused h, Except.error.injEq]
      exact ⟨fun he => ⟨h, he.symm⟩, fun he => he.2.symm⟩
    · obtain ⟨thrust, -, hok⟩ := staticThrust_of_allowed hv h load
      rw [hok]
      exact ⟨nofun, fun he => absurd he.1 h⟩
  condition := Dense.isCondition_of_rank hv (by cases s <;> exact Nat.succ_ne_zero _)
  elimination h hn b := solveSquare?_isSome hn (injective_gram_of_allowed hv h) b
  factorisation h b := Dense.solvePositive?_isSome (Dense.symmetric_gram _)
    (Dense.definite_gram (injective_gram_of_allowed hv h)) b

end Allocation

/-! ## Solved states -/

section
variable [SingularValues ℝ]

/-- The sensitivities of the state exist, and so does the inverse that they are made with. -/
structure Robot.HasSensitivity (r : Robot ℝ) (s : HoverState ℝ r.tree.size) : Prop where
  inverse : ∃ inverse, (s.allocation.controlled r.config.strategy).gram.inverse? = some inverse
  analytic : ∃ sensitivity, r.analytic s = .ok sensitivity

theorem Robot.hasSensitivity_of_solve {r : Robot ℝ} {setup : Setup ℝ} {q : Coordinates ℝ}
    {s : HoverState ℝ r.tree.size} (h : r.solve setup q = .ok s) : r.HasSensitivity s := by
  obtain ⟨e, he, ha, -⟩ := analytic_isOk (hovers_of_solve h)
  obtain ⟨inverse, hinverse, -⟩ := Option.map_eq_some_iff.mp he
  exact ⟨⟨inverse, hinverse⟩, _, ha⟩

namespace Model

theorem compute_eq_error_iff {r : Robot ℝ} {setup : Setup ℝ} {q : Coordinates ℝ}
    {cause : ModelError ℝ} : compute r setup q = .error cause ↔ r.solve setup q = .error cause := by
  refine bind_eq_error.trans (or_iff_left ?_)
  rintro ⟨s, hs, h⟩
  obtain ⟨sensitivity, ha⟩ := (Robot.hasSensitivity_of_solve hs).analytic
  rw [ha] at h
  cases h

/-- The update fails for `cause`, where it reads the values or where it solves for the state. -/
def FailsFor (m : Model ℝ) (values : List (String × ℝ)) (cause : ModelError ℝ) : Prop :=
  m.coordinates.apply m.robot.tree values = .error cause ∨
    ∃ applied, m.coordinates.apply m.robot.tree values = .ok applied ∧
      m.robot.solve m.setup applied.1 = .error cause

theorem update_eq_error_iff {m : Model ℝ} {values : List (String × ℝ)} {e : RequestError ℝ} :
    m.reply (.update values) = .error e ↔ ∃ cause, e = .model cause ∧ m.FailsFor values cause := by
  rw [reply_update, mapError_eq_error]
  refine exists_congr fun cause => ?_
  rw [map_eq_error, bind_eq_error, and_comm, eq_comm]
  simp only [compute_eq_error_iff, FailsFor]

end Model

/-- In exact arithmetic nothing fails but for the reasons that are stated for it. -/
theorem exact_refusals (hv : SingularValues.Exact ‹SingularValues ℝ›) :
    (∀ (a : Allocation ℝ) (s : Strategy) (limit : ℝ), a.RefusesExactly s limit) ∧
    (∀ (r : Robot ℝ) (setup : Setup ℝ) (q : Coordinates ℝ) (s : HoverState ℝ r.tree.size),
      r.solve setup q = .ok s → r.HasSensitivity s) ∧
    ∀ (m : Model ℝ) (values : List (String × ℝ)) (e : RequestError ℝ),
      m.reply (.update values) = .error e ↔ ∃ cause, e = .model cause ∧ m.FailsFor values cause :=
  ⟨Allocation.refusesExactly hv, fun _ _ _ _ => Robot.hasSensitivity_of_solve,
    fun _ _ _ => Model.update_eq_error_iff⟩

end

open Robot
open SingularValues (descending exact_descending)

/-- Six rotors determine the thrust of the hexarotor, and one of them does not. -/
theorem exact_refusals_hexarotor : descending.Exact ∧
    (∀ b, ∃ x, Allocation.solveSquare? hexarotorRows b rfl = some x) ∧
    (∀ load, @Allocation.staticThrust ℝ _ descending ⟨[hexarotorWrench 0]⟩ .fullyActuated 100 load =
      .error (@Allocation.refusal descending ⟨[hexarotorWrench 0]⟩ .fullyActuated)) ∧
    ∃ s sensitivity, @solve ℝ _ descending hexarotor bare ⟨[0]⟩ = .ok s ∧
      @analytic ℝ _ hexarotor s descending = .ok sensitivity := by
  let := descending
  obtain ⟨hrefuses, hsolved, -⟩ := exact_refusals exact_descending
  obtain ⟨s, hs⟩ := solve_hexarotor_descending
  obtain ⟨sensitivity, ha⟩ := (hsolved _ _ _ s hs).analytic
  have hone : (⟨[hexarotorWrench 0]⟩ : Allocation ℝ).rotorCount < 6 := by
    norm_num [Allocation.rotorCount]
  exact ⟨exact_descending, (hrefuses _ _ _).elimination allowed_hexarotor rfl,
    fun load => ((hrefuses _ _ _).error_iff load _).mpr ⟨.inl hone, rfl⟩, s, sensitivity, hs, ha⟩

end Multirotor
