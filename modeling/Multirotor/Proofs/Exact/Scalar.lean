import Mathlib
import Multirotor.Scalar

/-!
# Exact numbers

The real numbers as scalars. Every real is finite and defined, so larger and
smaller are maximum and minimum, and no real stands for a missing bound: the
least of no numbers is not a fact about them.
-/

namespace Multirotor

-- Arithmetic on real numbers is that of the library.
attribute [instance (low)] Scalar.toDiv Scalar.toOfScientific Scalar.toBEq

noncomputable instance : Scalar ℝ where
  decidableLT := inferInstance
  decidableLE := inferInstance
  beq := fun x y => decide (x = y)
  sqrt := Real.sqrt
  sin := Real.sin
  cos := Real.cos
  exp := Real.exp
  abs := fun x => |x|
  isFinite := fun _ => true
  unbounded := 0

namespace Scalar

theorem sqrt_real (x : ℝ) : Scalar.sqrt x = √x := rfl

theorem abs_real (x : ℝ) : Scalar.abs x = |x| := rfl

@[simp] theorem isFinite_real (x : ℝ) : Scalar.isFinite x = true := rfl

theorem beq_real (x y : ℝ) : @BEq.beq ℝ Scalar.toBEq x y = decide (x = y) := rfl

@[simp] theorem isUndefined_real (x : ℝ) : Scalar.isUndefined x = false := by
  simp [isUndefined]

theorem larger_real (x y : ℝ) : Scalar.larger x y = max x y := by
  simp only [larger, isUndefined_real, Bool.false_eq_true, or_false]
  split
  · rename_i h
    exact (max_eq_left h.le).symm
  · rename_i h
    exact (max_eq_right (not_lt.mp h)).symm

theorem smaller_real (x y : ℝ) : Scalar.smaller x y = min x y := by
  simp only [smaller, isUndefined_real, Bool.false_eq_true, or_false]
  split
  · rename_i h
    exact (min_eq_left h.le).symm
  · rename_i h
    exact (min_eq_right (not_lt.mp h)).symm

theorem sum_real (xs : List ℝ) : Scalar.sum xs = xs.sum := by
  rw [List.sum_eq_foldl]
  rfl

theorem le_foldl_smaller_iff (b : ℝ) (xs : List ℝ) (x : ℝ) :
    b ≤ xs.foldl Scalar.smaller x ↔ b ≤ x ∧ ∀ y ∈ xs, b ≤ y := by
  induction xs generalizing x with
  | nil => simp
  | cons y xs ih => simp [ih, smaller_real, and_assoc]

theorem least_cons (x : ℝ) (xs : List ℝ) : Scalar.least (x :: xs) = xs.foldl Scalar.smaller x := by
  simp [least]

theorem le_least_iff {b : ℝ} {xs : List ℝ} (h : xs ≠ []) :
    b ≤ Scalar.least xs ↔ ∀ x ∈ xs, b ≤ x := by
  cases xs with
  | nil => exact absurd rfl h
  | cons x xs => rw [least_cons, le_foldl_smaller_iff, List.forall_mem_cons]

theorem foldl_mem {β : Type} {f : β → β → β} (hf : ∀ x y, f x y = x ∨ f x y = y) (xs : List β)
    (x : β) : xs.foldl f x ∈ x :: xs := by
  induction xs generalizing x with
  | nil => exact List.mem_singleton_self x
  | cons y xs ih =>
    rcases List.mem_cons.mp (ih (f x y)) with he | hm
    · rw [List.foldl_cons, he]
      rcases hf x y with h | h <;> simp [h]
    · exact List.mem_cons_of_mem _ (List.mem_cons_of_mem _ hm)

theorem foldl_larger_mem (xs : List ℝ) (x : ℝ) : xs.foldl Scalar.larger x ∈ x :: xs :=
  foldl_mem (fun x y => by rw [larger_real]; exact max_choice x y) xs x

theorem foldl_smaller_mem (xs : List ℝ) (x : ℝ) : xs.foldl Scalar.smaller x ∈ x :: xs :=
  foldl_mem (fun x y => by rw [smaller_real]; exact min_choice x y) xs x

theorem least_mem {xs : List ℝ} (h : xs ≠ []) : Scalar.least xs ∈ xs := by
  cases xs with
  | nil => exact absurd rfl h
  | cons x xs =>
    rw [least_cons]
    exact foldl_smaller_mem xs x

end Scalar

end Multirotor
