import Multirotor.Proofs.Exact.Scalar
import Multirotor.LinearSystem.Elimination

/-!
# Elimination solves

Over exact numbers an elimination that goes through finds the one solution of
its equations (`solve?_spec`), and so does the one with square roots for
symmetric equations (`solvePositive?_spec`).
-/

namespace Multirotor

namespace Dense

variable {m n k : Nat}

theorem sum_real (f : Fin n → ℝ) : sum f = ∑ i, f i := by
  rw [sum, Fin.sum_univ_def, List.sum_eq_foldl, List.foldl_map]

theorem isFinite_real (a : Dense ℝ m n) : a.isFinite = true := by
  simp [isFinite]

@[simp] theorem entry_ofFn {α : Type} (f : Fin m → Fin n → α) (i : Fin m) (j : Fin n) :
    (ofFn f).entry i j = f i j := by
  simp [ofFn, entry]

@[simp] theorem entry_transpose {α : Type} (a : Dense α m n) (i : Fin n) (j : Fin m) :
    a.transpose.entry i j = a.entry j i := by
  simp [transpose]

theorem get_apply (a : Dense ℝ m n) (v : Vector ℝ n) (i : Fin m) :
    (a.apply v).get i = ∑ j, a.entry i j * v.get j := by
  simp [apply, sum_real]

theorem entry_mul (a : Dense ℝ m n) (b : Dense ℝ n k) (i : Fin m) (j : Fin k) :
    (a.mul b).entry i j = ∑ l, a.entry i l * b.entry l j := by
  simp [mul, sum_real]

theorem entry_gram (a : Dense ℝ m n) (i j : Fin m) :
    a.gram.entry i j = ∑ l, a.entry i l * a.entry j l := by
  simp [gram, entry_mul]

@[simp] theorem get_cons_zero {α : Type} (x : α) (v : Vector α n) : (cons x v).get 0 = x := by
  simp [cons]

@[simp] theorem get_cons_succ {α : Type} (x : α) (v : Vector α n) (i : Fin n) :
    (cons x v).get i.succ = v.get i := by
  simp [cons]

theorem vector_ext {α : Type} {v w : Vector α n} (h : ∀ i, v.get i = w.get i) : v = w := by
  ext i hi
  exact h ⟨i, hi⟩

theorem eq_cons_iff {α : Type} {x : α} {v : Vector α n} {w : Vector α (n + 1)} :
    w = cons x v ↔ w.get 0 = x ∧ Vector.ofFn (fun i : Fin n => w.get i.succ) = v := by
  constructor
  · rintro rfl
    exact ⟨get_cons_zero x v, vector_ext fun i => by simp⟩
  · rintro ⟨rfl, rfl⟩
    refine vector_ext fun i => ?_
    cases i using Fin.cases with
    | zero => simp
    | succ i => simp

theorem entry_ext {α : Type} {a b : Dense α m n} (h : ∀ i j, a.entry i j = b.entry i j) : a = b :=
  vector_ext fun i => vector_ext (h i)

/-! ## Equations -/

def Solves (a : Dense ℝ m n) (b : Vector ℝ m) (x : Vector ℝ n) : Prop :=
  ∀ i, ∑ j, a.entry i j * x.get j = b.get i

theorem forall_row_iff {P : Fin (n + 1) → Prop} (p : Fin (n + 1)) :
    (∀ i, P i) ↔ P p ∧ ∀ i : Fin n, P (otherRow p i) := by
  refine ⟨fun h => ⟨h p, fun i => h _⟩, fun ⟨hp, h⟩ i => ?_⟩
  by_cases hi : i = p
  · exact hi ▸ hp
  · cases i using Fin.cases with
    | zero =>
      obtain ⟨j, rfl⟩ := Fin.exists_succ_eq.mpr (Ne.symm hi)
      simpa [otherRow] using h j
    | succ j => simpa [otherRow, hi] using h j

/-! ## One step -/

theorem sub_factor_mul {p₀ r₀ : ℝ} (hp : p₀ ≠ 0) (p r v : Fin n → ℝ) (v₀ : ℝ) :
    (r₀ * v₀ + ∑ j, r j * v j) - r₀ / p₀ * (p₀ * v₀ + ∑ j, p j * v j) =
      ∑ j, (r j - r₀ / p₀ * p j) * v j := by
  have h : ∑ j, (r j - r₀ / p₀ * p j) * v j = ∑ j, r j * v j - r₀ / p₀ * ∑ j, p j * v j := by
    rw [Finset.mul_sum, ← Finset.sum_sub_distrib]
    exact Finset.sum_congr rfl fun j _ => by ring
  rw [h]
  field_simp
  ring

/-- If row `p` holds, every other row holds if and only if its reduced form does. -/
theorem row_iff_reduced {a : Dense ℝ (n + 1) (n + 1)} {b y : Vector ℝ (n + 1)} {p : Fin (n + 1)}
    (hp : a.entry p 0 ≠ 0) (hrow : ∑ j, a.entry p j * y.get j = b.get p) (i : Fin n) :
    ∑ j, a.entry (otherRow p i) j * y.get j = b.get (otherRow p i) ↔
      ∑ j, (reduced a p).entry i j * y.get j.succ = (reducedRight a b p).get i := by
  simp only [reduced, reducedRight, entry_ofFn, Vector.get_ofFn]
  rw [← sub_factor_mul hp (fun j => a.entry p j.succ), ← hrow, Fin.sum_univ_succ, Fin.sum_univ_succ]
  exact sub_left_inj.symm

theorem pivot_iff {a : Dense ℝ (n + 1) (n + 1)} {b y : Vector ℝ (n + 1)} {p : Fin (n + 1)}
    (hp : a.entry p 0 ≠ 0) : ∑ j, a.entry p j * y.get j = b.get p ↔
      y.get 0 = (b.get p - ∑ j : Fin n, a.entry p j.succ * y.get j.succ) / a.entry p 0 := by
  rw [Fin.sum_univ_succ, eq_div_iff hp, eq_sub_iff_add_eq, mul_comm (y.get 0)]

theorem solves_iff_eq_cons {a : Dense ℝ (n + 1) (n + 1)} {b : Vector ℝ (n + 1)} {p : Fin (n + 1)}
    (hp : a.entry p 0 ≠ 0) {x : Vector ℝ n}
    (hx : ∀ y, Solves (reduced a p) (reducedRight a b p) y ↔ y = x) (y : Vector ℝ (n + 1)) :
    Solves a b y ↔
      y = cons ((b.get p - ∑ j : Fin n, a.entry p j.succ * x.get j) / a.entry p 0) x := by
  have htail := hx (Vector.ofFn fun i => y.get i.succ)
  simp only [Solves, Vector.get_ofFn] at htail
  rw [eq_cons_iff, Solves, forall_row_iff p]
  constructor
  · rintro ⟨hrow, hrest⟩
    have hx' := htail.mp fun i => (row_iff_reduced hp hrow i).mp (hrest i)
    refine ⟨(pivot_iff hp).mp hrow |>.trans ?_, hx'⟩
    simp [← hx']
  · rintro ⟨hfirst, hx'⟩
    have hrow : ∑ j, a.entry p j * y.get j = b.get p := by
      refine (pivot_iff hp).mpr (hfirst.trans ?_)
      simp [← hx']
    exact ⟨hrow, fun i => (row_iff_reduced hp hrow i).mpr (htail.mpr hx' i)⟩

/-! ## Elimination solves -/

theorem solve?_spec : ∀ {n : Nat} {a : Dense ℝ n n} {b x : Vector ℝ n},
    solve? a b = some x → ∀ y, Solves a b y ↔ y = x
  | 0, _, _, _, _, _ => ⟨fun _ => vector_ext fun i => i.elim0, fun _ i => i.elim0⟩
  | n + 1, a, b, x, h, y => by
    simp only [solve?, Scalar.beq_real, decide_eq_true_eq] at h
    split at h
    · cases h
    · rename_i hp
      obtain ⟨x', hx', rfl⟩ := Option.map_eq_some_iff.mp h
      rw [sum_real]
      exact solves_iff_eq_cons hp (solve?_spec hx') y

/-! ## Elimination goes through -/

theorem le_foldl_best {β : Type} (f : β → ℝ) (l : List β) (b : β) :
    f b ≤ f (l.foldl (fun best i => if f best < f i then i else best) b) ∧
      ∀ i ∈ l, f i ≤ f (l.foldl (fun best i => if f best < f i then i else best) b) := by
  induction l generalizing b with
  | nil => simp
  | cons c l ih =>
    obtain ⟨hb, hl⟩ := ih (if f b < f c then c else b)
    have hbc : f b ≤ f (if f b < f c then c else b) ∧ f c ≤ f (if f b < f c then c else b) := by
      split
      · rename_i h
        exact ⟨h.le, le_refl _⟩
      · rename_i h
        exact ⟨le_refl _, not_lt.mp h⟩
    refine ⟨hbc.1.trans hb, fun i hi => ?_⟩
    rcases List.mem_cons.mp hi with rfl | hi
    · exact hbc.2.trans hb
    · exact hl i hi

theorem abs_entry_le_pivot (a : Dense ℝ (n + 1) (n + 1)) (i : Fin (n + 1)) :
    |a.entry i 0| ≤ |a.entry (pivotRow a) 0| :=
  (le_foldl_best (fun i => |a.entry i 0|) _ 0).2 i (List.mem_finRange i)

def Injective (a : Dense ℝ n n) : Prop :=
  ∀ y : Vector ℝ n, (∀ i, ∑ j, a.entry i j * y.get j = 0) → ∀ j, y.get j = 0

theorem Injective.pivot_ne_zero {a : Dense ℝ (n + 1) (n + 1)} (h : a.Injective) :
    a.entry (pivotRow a) 0 ≠ 0 := by
  intro hp
  have hcol : ∀ i, a.entry i 0 = 0 := fun i => by
    have := abs_entry_le_pivot a i
    rwa [hp, abs_zero, abs_nonpos_iff] at this
  have := h (cons 1 (Vector.ofFn fun _ => 0)) (fun i => by simp [Fin.sum_univ_succ, hcol]) 0
  simp at this

theorem Injective.reduced {a : Dense ℝ (n + 1) (n + 1)} {p : Fin (n + 1)} (h : a.Injective)
    (hp : a.entry p 0 ≠ 0) : (reduced a p).Injective := by
  intro y hy i
  let b : Vector ℝ (n + 1) := Vector.ofFn fun _ => 0
  let z := cons ((b.get p - ∑ j : Fin n, a.entry p j.succ * y.get j) / a.entry p 0) y
  have hrow : ∑ j, a.entry p j * z.get j = b.get p := (pivot_iff hp).mpr (by simp [z])
  have hrest : ∀ i : Fin n, ∑ j, a.entry (otherRow p i) j * z.get j = b.get (otherRow p i) :=
    fun i => (row_iff_reduced hp hrow i).mpr (by simp [z, b, reducedRight, hy i])
  have hz : ∀ k, ∑ j, a.entry k j * z.get j = b.get k := (forall_row_iff p).mpr ⟨hrow, hrest⟩
  have hzero := h z (fun k => (hz k).trans (by simp [b])) i.succ
  simpa [z] using hzero

theorem solve?_isSome : ∀ {n : Nat} {a : Dense ℝ n n}, a.Injective →
    ∀ b : Vector ℝ n, ∃ x, solve? a b = some x
  | 0, _, _, b => ⟨b, rfl⟩
  | n + 1, a, h, b => by
    have hp := h.pivot_ne_zero
    obtain ⟨x, hx⟩ := solve?_isSome (h.reduced hp) (reducedRight a b (pivotRow a))
    simp only [solve?, Scalar.beq_real, decide_eq_true_eq, if_neg hp]
    exact ⟨_, Option.map_eq_some_iff.mpr ⟨x, hx, rfl⟩⟩

theorem injective_of_unique {a : Dense ℝ n n} {b x : Vector ℝ n}
    (h : ∀ y, Solves a b y ↔ y = x) : a.Injective := by
  intro y hy j
  have hsum : Solves a b (Vector.ofFn fun i => x.get i + y.get i) := fun i => by
    simp only [Vector.get_ofFn, mul_add, Finset.sum_add_distrib, hy, add_zero]
    exact (h x).mpr rfl i
  have hj := congrArg (·.get j) ((h _).mp hsum)
  simpa using hj

/-! ## Symmetric systems -/

def Symmetric (a : Dense ℝ n n) : Prop := ∀ i j, a.entry i j = a.entry j i

theorem symmetric_gram (a : Dense ℝ m n) : a.gram.Symmetric := by
  intro i j
  simp only [entry_gram, mul_comm]

theorem otherRow_zero (i : Fin n) : otherRow 0 i = i.succ := by
  simp [otherRow]

theorem Symmetric.reduced {a : Dense ℝ (n + 1) (n + 1)} (h : a.Symmetric) :
    (reduced a 0).Symmetric := by
  intro i j
  simp only [Dense.reduced, entry_ofFn, otherRow_zero]
  rw [h i.succ j.succ, h 0 j.succ, h 0 i.succ]
  ring

/-- Dividing by the square root of the corner twice is dividing by the corner. -/
theorem root_step {a : Dense ℝ (n + 1) (n + 1)} (hs : a.Symmetric) (hp : 0 < a.entry 0 0) :
    (ofFn fun i j : Fin n => a.entry i.succ j.succ -
        a.entry i.succ 0 / √(a.entry 0 0) * (a.entry j.succ 0 / √(a.entry 0 0))) = reduced a 0 := by
  refine entry_ext fun i j => ?_
  simp only [reduced, entry_ofFn, otherRow_zero, hs 0 j.succ]
  rw [div_mul_div_comm, Real.mul_self_sqrt hp.le, div_mul_eq_mul_div]

theorem root_step_right {a : Dense ℝ (n + 1) (n + 1)} (b : Vector ℝ (n + 1))
    (hp : 0 < a.entry 0 0) :
    (Vector.ofFn fun i : Fin n => b.get i.succ -
        a.entry i.succ 0 / √(a.entry 0 0) * (b.get 0 / √(a.entry 0 0))) = reducedRight a b 0 := by
  refine vector_ext fun i => ?_
  simp only [reducedRight, Vector.get_ofFn, otherRow_zero]
  rw [div_mul_div_comm, Real.mul_self_sqrt hp.le, div_mul_eq_mul_div]

theorem root_step_first {a : Dense ℝ (n + 1) (n + 1)} (hs : a.Symmetric) (hp : 0 < a.entry 0 0)
    (b : ℝ) (x : Vector ℝ n) :
    (b / √(a.entry 0 0) - ∑ i : Fin n, a.entry i.succ 0 / √(a.entry 0 0) * x.get i) /
        √(a.entry 0 0) =
      (b - ∑ i : Fin n, a.entry 0 i.succ * x.get i) / a.entry 0 0 := by
  have h : ∑ i : Fin n, a.entry i.succ 0 / √(a.entry 0 0) * x.get i =
      (∑ i : Fin n, a.entry 0 i.succ * x.get i) / √(a.entry 0 0) := by
    rw [Finset.sum_div]
    exact Finset.sum_congr rfl fun i _ => by rw [hs i.succ 0, div_mul_eq_mul_div]
  rw [h, ← sub_div, div_div, Real.mul_self_sqrt hp.le]

theorem solvePositive?_spec : ∀ {n : Nat} {a : Dense ℝ n n} {b x : Vector ℝ n}, a.Symmetric →
    solvePositive? a b = some x → ∀ y, Solves a b y ↔ y = x
  | 0, _, _, _, _, _, _ => ⟨fun _ => vector_ext fun i => i.elim0, fun _ i => i.elim0⟩
  | n + 1, a, b, x, hs, h, y => by
    simp only [solvePositive?] at h
    split at h
    · rename_i hp
      obtain ⟨x', hx', rfl⟩ := Option.map_eq_some_iff.mp h
      simp only [Vector.get_ofFn, Scalar.sqrt_real, sum_real] at hx' ⊢
      rw [root_step hs hp, root_step_right b hp] at hx'
      rw [root_step_first hs hp]
      exact solves_iff_eq_cons hp.ne' (solvePositive?_spec hs.reduced hx') y
    · cases h

/-! ## Definite systems -/

def form (a : Dense ℝ n n) (y : Vector ℝ n) : ℝ := ∑ i, y.get i * ∑ j, a.entry i j * y.get j

def Definite (a : Dense ℝ n n) : Prop := ∀ y : Vector ℝ n, (∃ i, y.get i ≠ 0) → 0 < a.form y

theorem Definite.corner_pos {a : Dense ℝ (n + 1) (n + 1)} (h : a.Definite) : 0 < a.entry 0 0 := by
  have := h (cons 1 (Vector.ofFn fun _ => 0)) ⟨0, by simp⟩
  simpa [form, Fin.sum_univ_succ] using this

/-- The form of a reduced system is that of the whole one where the first row vanishes. -/
theorem form_reduced {a : Dense ℝ (n + 1) (n + 1)} (hp : a.entry 0 0 ≠ 0) (y : Vector ℝ n) :
    (reduced a 0).form y =
      a.form (cons (-(∑ j : Fin n, a.entry 0 j.succ * y.get j) / a.entry 0 0) y) := by
  have hfirst : a.entry 0 0 * (-(∑ j : Fin n, a.entry 0 j.succ * y.get j) / a.entry 0 0) +
      ∑ j : Fin n, a.entry 0 j.succ * y.get j = 0 := by
    rw [mul_div_cancel₀ _ hp, neg_add_cancel]
  unfold form
  rw [Fin.sum_univ_succ]
  simp only [Fin.sum_univ_succ (fun j => a.entry _ j * _), get_cons_zero, get_cons_succ]
  rw [hfirst, mul_zero, zero_add]
  refine Finset.sum_congr rfl fun i _ => congrArg (y.get i * ·) ?_
  have hstep := @sub_factor_mul n _ (a.entry i.succ 0) hp (fun j => a.entry 0 j.succ)
    (fun j => a.entry i.succ j.succ) y.get
    (-(∑ j : Fin n, a.entry 0 j.succ * y.get j) / a.entry 0 0)
  rw [hfirst, mul_zero, sub_zero] at hstep
  rw [hstep]
  simp only [reduced, entry_ofFn, otherRow_zero]

theorem Definite.reduced {a : Dense ℝ (n + 1) (n + 1)} (h : a.Definite) :
    (reduced a 0).Definite := by
  intro y ⟨i, hi⟩
  rw [form_reduced h.corner_pos.ne']
  exact h _ ⟨i.succ, by simpa using hi⟩

theorem solvePositive?_isSome : ∀ {n : Nat} {a : Dense ℝ n n}, a.Symmetric → a.Definite →
    ∀ b : Vector ℝ n, ∃ x, solvePositive? a b = some x
  | 0, _, _, _, b => ⟨b, rfl⟩
  | n + 1, a, hs, h, b => by
    have hp := h.corner_pos
    obtain ⟨x, hx⟩ := solvePositive?_isSome hs.reduced h.reduced (reducedRight a b 0)
    simp only [solvePositive?, if_pos hp, Vector.get_ofFn, Scalar.sqrt_real]
    rw [root_step hs hp, root_step_right b hp]
    exact ⟨_, Option.map_eq_some_iff.mpr ⟨x, hx, rfl⟩⟩

theorem sum_gram_mul (a : Dense ℝ m n) (y : Vector ℝ m) (i : Fin m) :
    ∑ j, a.gram.entry i j * y.get j = ∑ l, a.entry i l * ∑ j, y.get j * a.entry j l := by
  simp only [entry_gram, Finset.sum_mul, Finset.mul_sum]
  rw [Finset.sum_comm]
  exact Finset.sum_congr rfl fun l _ => Finset.sum_congr rfl fun j _ => by ring

/-- The form of a Gram matrix is a sum of squares. -/
theorem form_gram (a : Dense ℝ m n) (y : Vector ℝ m) :
    a.gram.form y = ∑ l, (∑ i, y.get i * a.entry i l) ^ 2 := by
  simp only [form, sum_gram_mul]
  calc ∑ i, y.get i * ∑ l, a.entry i l * ∑ j, y.get j * a.entry j l
      = ∑ i, ∑ l, y.get i * a.entry i l * ∑ j, y.get j * a.entry j l := by
        simp only [Finset.mul_sum, mul_assoc]
    _ = ∑ l, ∑ i, y.get i * a.entry i l * ∑ j, y.get j * a.entry j l := Finset.sum_comm
    _ = ∑ l, (∑ i, y.get i * a.entry i l) ^ 2 := by
        simp only [← Finset.sum_mul, sq]

theorem definite_gram {a : Dense ℝ m n} (h : a.gram.Injective) : a.gram.Definite := by
  intro y ⟨i, hi⟩
  rw [form_gram]
  have hnonneg : ∀ l ∈ Finset.univ, 0 ≤ (∑ i, y.get i * a.entry i l) ^ 2 := fun l _ => sq_nonneg _
  refine lt_of_le_of_ne (Finset.sum_nonneg hnonneg) fun hzero => hi ?_
  have hcols : ∀ l, ∑ i, y.get i * a.entry i l = 0 := fun l =>
    pow_eq_zero_iff two_ne_zero |>.mp
      ((Finset.sum_eq_zero_iff_of_nonneg hnonneg).mp hzero.symm l (Finset.mem_univ l))
  refine h y (fun k => ?_) i
  simp only [sum_gram_mul, hcols, mul_zero, Finset.sum_const_zero]

end Dense

end Multirotor
