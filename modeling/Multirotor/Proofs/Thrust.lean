import Multirotor.Proofs.LinearSystem.Elimination
import Multirotor.Allocation

/-!
# Static thrust

Over exact numbers the static thrust balances its load on the controlled
axes, and it is shorter than any other thrust that does
(`staticThrust_shortest`), whether there are as many rotors as axes or more.
-/

namespace Multirotor

theorem exists_ofFn {β : Type} {n : Nat} {l : List β} (h : l.length = n) :
    ∃ f : Fin n → β, l = List.ofFn f := by
  subst h
  exact ⟨l.get, (List.ofFn_get l).symm⟩

theorem getD_ofFn {β : Type} {n : Nat} (f : Fin n → β) (j : Fin n) (b : β) :
    (List.ofFn f).getD j b = f j := by
  rw [List.getD_eq_getElem _ _ (by simp), List.getElem_ofFn]

theorem zip_ofFn {β γ : Type} {n : Nat} (f : Fin n → β) (g : Fin n → γ) :
    (List.ofFn f).zip (List.ofFn g) = List.ofFn fun j => (f j, g j) :=
  List.ext_getElem (by simp) fun i _ _ => by simp

namespace Wrench

theorem get_add (v w : Wrench ℝ) (k : Fin 6) : (v + w).get k = v.get k + w.get k := by
  fin_cases k <;> rfl

theorem get_mul (w : Wrench ℝ) (t : ℝ) (k : Fin 6) : (w * t).get k = w.get k * t := by
  fin_cases k <;> rfl

theorem get_zero (k : Fin 6) : (0 : Wrench ℝ).get k = 0 := by
  fin_cases k <;> rfl

theorem get_foldl_add (ws : List (Wrench ℝ)) (w : Wrench ℝ) (k : Fin 6) :
    (ws.foldl (· + ·) w).get k = w.get k + (ws.map fun v => v.get k).sum := by
  induction ws generalizing w with
  | nil => simp
  | cons v ws ih => rw [List.foldl_cons, ih, get_add, List.map_cons, List.sum_cons, add_assoc]

end Wrench

namespace Allocation

theorem toList_eq_ofFn {α : Type} {n : Nat} (v : Vector α n) : v.toList = List.ofFn v.get := by
  refine List.ext_getElem (by simp) fun i h _ => ?_
  simp [Vector.get]

theorem get_wrench_ofFn {n : Nat} (w : Fin n → Wrench ℝ) (f : Fin n → ℝ) (k : Fin 6) :
    ((⟨List.ofFn w⟩ : Allocation ℝ).wrench (List.ofFn f)).get k = ∑ j, (w j).get k * f j := by
  rw [wrench, Wrench.get_foldl_add, zip_ofFn, Wrench.get_zero, zero_add, List.map_ofFn, List.map_ofFn,
    List.sum_ofFn]
  exact Finset.sum_congr rfl fun j _ => Wrench.get_mul _ _ _

theorem get_wrench (a : Allocation ℝ) (v : Vector ℝ a.rotorCount) (k : Fin 6) :
    (a.wrench v.toList).get k = ∑ j : Fin a.rotorCount, (a.columns.get j).get k * v.get j := by
  have h := get_wrench_ofFn a.columns.get v.get k
  rw [List.ofFn_get] at h
  rw [toList_eq_ofFn]
  exact h

def Balances (a : Allocation ℝ) (s : Strategy) (load : Wrench ℝ) (thrust : List ℝ) : Prop :=
  ∀ axis ∈ s.axes, (a.wrench thrust).get axis = -load.get axis

theorem balances_iff_solves {a : Allocation ℝ} {s : Strategy} {load : Wrench ℝ}
    {v : Vector ℝ a.rotorCount} :
    a.Balances s load v.toList ↔ Dense.Solves (a.controlled s) (demand s load) v := by
  simp only [Balances, Dense.Solves, controlled, demand, Dense.entry_ofFn, Vector.get_ofFn,
    get_wrench]
  exact List.forall_mem_iff_get

noncomputable def length (thrust : List ℝ) : ℝ := √(thrust.map (· ^ 2)).sum

theorem length_toList {n : Nat} (v : Vector ℝ n) : length v.toList = √(∑ j, v.get j ^ 2) := by
  rw [length, toList_eq_ofFn, List.map_ofFn, List.sum_ofFn]
  rfl

/-! ## The shortest solution -/

section
variable {m n : Nat} {q : Dense ℝ m n} {b : Vector ℝ m}

/-- `x` solves the equations and is shorter than any other solution. -/
def Shortest (q : Dense ℝ m n) (b : Vector ℝ m) (x : Vector ℝ n) : Prop :=
  q.Solves b x ∧ ∀ y, q.Solves b y → y ≠ x → ∑ j, x.get j ^ 2 < ∑ j, y.get j ^ 2

theorem solveSquare?_eq (q : Dense ℝ n n) (b : Vector ℝ n) :
    solveSquare? q b rfl = Dense.solve? q b := by
  have hq : (Dense.ofFn fun i (j : Fin n) => q.entry i (j.cast rfl)) = q :=
    Dense.entry_ext fun i j => by simp
  rw [solveSquare?, hq]
  cases Dense.solve? q b <;> rfl

theorem solveSquare?_spec {h : n = m} {x : Vector ℝ n} (hx : solveSquare? q b h = some x)
    (y : Vector ℝ n) : q.Solves b y ↔ y = x := by
  subst h
  exact Dense.solve?_spec (solveSquare?_eq q b ▸ hx) y

theorem solveSquare?_shortest {h : n = m} {x : Vector ℝ n} (hx : solveSquare? q b h = some x) :
    Shortest q b x :=
  ⟨(solveSquare?_spec hx x).mpr rfl, fun y hy hne => absurd ((solveSquare?_spec hx y).mp hy) hne⟩

theorem solves_transpose_apply {y : Vector ℝ m} (h : q.gram.Solves b y) :
    q.Solves b (q.transpose.apply y) := by
  intro i
  rw [← h i]
  simp only [Dense.get_apply, Dense.entry_transpose, Dense.entry_gram, Finset.mul_sum,
    Finset.sum_mul]
  rw [Finset.sum_comm]
  exact Finset.sum_congr rfl fun l _ => Finset.sum_congr rfl fun j _ => by ring

/-- What the transpose reaches is orthogonal to what the matrix takes to zero. -/
theorem transpose_apply_orthogonal (y : Vector ℝ m) {d : Fin n → ℝ}
    (hd : ∀ i, ∑ j, q.entry i j * d j = 0) : ∑ j, (q.transpose.apply y).get j * d j = 0 := by
  simp only [Dense.get_apply, Dense.entry_transpose, Finset.sum_mul]
  rw [Finset.sum_comm]
  refine Finset.sum_eq_zero fun i _ => ?_
  calc ∑ j, q.entry i j * y.get i * d j = y.get i * ∑ j, q.entry i j * d j := by
        rw [Finset.mul_sum]
        exact Finset.sum_congr rfl fun j _ => by ring
    _ = 0 := by rw [hd i, mul_zero]

theorem shortest_transpose_apply {y : Vector ℝ m} (h : q.gram.Solves b y) :
    Shortest q b (q.transpose.apply y) := by
  have hs := solves_transpose_apply h
  refine ⟨hs, fun z hz hne => ?_⟩
  generalize hx : q.transpose.apply y = x at hs hne ⊢
  have horth : ∑ j, x.get j * (z.get j - x.get j) = 0 := by
    rw [← hx]
    refine transpose_apply_orthogonal y fun i => ?_
    simp only [mul_sub, Finset.sum_sub_distrib, hx, hz i, hs i, sub_self]
  obtain ⟨k, hk⟩ : ∃ k, z.get k ≠ x.get k := by
    by_contra hall
    push Not at hall
    exact hne (Dense.vector_ext hall)
  have hpos : 0 < ∑ j, (z.get j - x.get j) ^ 2 :=
    Finset.sum_pos' (fun j _ => sq_nonneg _) ⟨k, Finset.mem_univ k, by
      have := sub_ne_zero.mpr hk
      positivity⟩
  have hsplit : ∑ j, z.get j ^ 2 = ∑ j, x.get j ^ 2 + 2 * ∑ j, x.get j * (z.get j - x.get j) +
      ∑ j, (z.get j - x.get j) ^ 2 := by
    rw [Finset.mul_sum, ← Finset.sum_add_distrib, ← Finset.sum_add_distrib]
    exact Finset.sum_congr rfl fun j _ => by ring
  rw [hsplit, horth]
  linarith

theorem solveShortest?_shortest {x : Vector ℝ n} (hx : solveShortest? q b = some x) :
    Shortest q b x := by
  obtain ⟨y, hy, rfl⟩ := Option.map_eq_some_iff.mp hx
  exact shortest_transpose_apply ((Dense.solvePositive?_spec q.symmetric_gram hy y).mpr rfl)

theorem Shortest.unique {x y : Vector ℝ n} (hx : Shortest q b x) (hy : Shortest q b y) : x = y := by
  by_contra hne
  exact lt_asymm (hx.2 y hy.1 (Ne.symm hne)) (hy.2 x hx.1 hne)

end

theorem staticThrust_solution [SingularValues ℝ] {a : Allocation ℝ} {s : Strategy} {limit : ℝ}
    {load : Wrench ℝ} {t : StaticThrust ℝ} (h : a.staticThrust s limit load = .ok t) :
    ∃ x, t.thrust = x.toList ∧
      ((∃ hn, solveSquare? (a.controlled s) (demand s load) hn = some x) ∨
        solveShortest? (a.controlled s) (demand s load) = some x) := by
  simp only [staticThrust] at h
  split at h
  · cases h
  split at h
  · rename_i x hx
    cases h
    refine ⟨x, rfl, ?_⟩
    split at hx
    · exact .inl ⟨_, hx⟩
    · exact .inr hx
  · cases h

theorem staticThrust_eq_ok [SingularValues ℝ] {a : Allocation ℝ} {s : Strategy} {limit : ℝ}
    {load : Wrench ℝ} {t : StaticThrust ℝ} (h : a.staticThrust s limit load = .ok t) :
    ∃ x, Shortest (a.controlled s) (demand s load) x ∧ t.thrust = x.toList := by
  obtain ⟨x, ht, ⟨hn, hx⟩ | hx⟩ := staticThrust_solution h
  · exact ⟨x, solveSquare?_shortest hx, ht⟩
  · exact ⟨x, solveShortest?_shortest hx, ht⟩

/-- Whenever there is a static thrust, it balances the load, and any other thrust that balances it
is longer. -/
theorem staticThrust_shortest [SingularValues ℝ] {a : Allocation ℝ} {s : Strategy} {limit : ℝ}
    {load : Wrench ℝ} {t : StaticThrust ℝ} (h : a.staticThrust s limit load = .ok t) :
    t.thrust.length = a.rotorCount ∧ a.Balances s load t.thrust ∧
      ∀ other, other.length = a.rotorCount → a.Balances s load other → other ≠ t.thrust →
        length t.thrust < length other := by
  obtain ⟨x, ⟨hsolves, hshort⟩, ht⟩ := staticThrust_eq_ok h
  rw [ht]
  refine ⟨Vector.length_toList, balances_iff_solves.mpr hsolves, fun other hlen hother hne => ?_⟩
  obtain ⟨y, rfl⟩ : ∃ y : Vector ℝ a.rotorCount, y.toList = other :=
    ⟨⟨other.toArray, by simpa using hlen⟩, rfl⟩
  rw [length_toList, length_toList]
  refine Real.sqrt_lt_sqrt (Finset.sum_nonneg fun j _ => sq_nonneg _) ?_
  exact hshort y (balances_iff_solves.mp hother) fun e => hne (congrArg Vector.toList e)

/-! ## As many rotors as axes -/

/-- Equal singular values are all of the rank, and the condition number is one. -/
theorem rankAndCondition_replicate [SingularValues ℝ] {m n k : Nat} {a : Dense ℝ m n} {v : ℝ}
    (h : SingularValues.singularValues a = List.replicate (k + 1) v) (hv : 0 < v)
    (hsize : ((max m n : Nat) : ℝ) * Dense.roundoff < 1) : a.rankAndCondition = (k + 1, 1) := by
  have htop : ∀ j, (List.replicate j v).foldl Scalar.larger v = v := fun j => by
    induction j with
    | zero => rfl
    | succ j ih => rw [List.replicate_succ, List.foldl_cons, Scalar.larger_real, max_self, ih]
  have hbottom : ∀ j, (List.replicate j v).foldl Scalar.smaller v = v := fun j => by
    induction j with
    | zero => rfl
    | succ j ih => rw [List.replicate_succ, List.foldl_cons, Scalar.smaller_real, min_self, ih]
  have htol : v * ((max m n : Nat) : ℝ) * Dense.roundoff < v := by
    nlinarith
  have hcount : (v :: List.replicate k v).countP
      (fun x => decide (v * ((max m n : Nat) : ℝ) * Dense.roundoff < x)) = k + 1 := by
    rw [← List.replicate_succ, List.countP_replicate, if_pos (decide_eq_true htol)]
  rw [List.replicate_succ] at h
  simp only [Dense.rankAndCondition, Dense.isFinite_real, if_true, h, htop, hbottom, if_pos hv, div_self hv.ne']
  exact Prod.ext hcount rfl

theorem staticThrust_isOk [SingularValues ℝ] {a : Allocation ℝ} {s : Strategy} {limit condition : ℝ}
    (hcount : a.rotorCount = s.axes.length)
    (hrank : (a.controlled s).rankAndCondition = (s.axes.length, condition))
    (hlimit : condition ≤ limit) (hinj : Dense.Injective (Dense.ofFn fun i (j : Fin s.axes.length) =>
      (a.controlled s).entry i (j.cast hcount.symm))) (load : Wrench ℝ) :
    ∃ t, a.staticThrust s limit load = .ok t := by
  obtain ⟨x, hx⟩ := Dense.solve?_isSome hinj (demand s load)
  have hsolve : solveSquare? (a.controlled s) (demand s load) hcount = some (x.cast hcount.symm) :=
    Option.map_eq_some_iff.mpr ⟨x, hx, rfl⟩
  have hok : ¬(a.rotorCount < s.axes.length ∨ s.axes.length < s.axes.length ∨ limit < condition) := by
    rw [hcount]
    simp [hlimit]
  simp only [staticThrust, hrank, if_neg hok, dif_pos hcount, hsolve]
  exact ⟨_, rfl⟩

/-- Four rotors at the corners of a square, neighbours turning in opposite ways. -/
noncomputable def square : Allocation ℝ :=
  ⟨[⟨⟨0, 0, 1⟩, ⟨1, -1, 1⟩⟩, ⟨⟨0, 0, 1⟩, ⟨1, 1, -1⟩⟩, ⟨⟨0, 0, 1⟩, ⟨-1, 1, 1⟩⟩,
    ⟨⟨0, 0, 1⟩, ⟨-1, -1, -1⟩⟩]⟩

/-- The controlled rows of the square are orthogonal and of length two. -/
@[reducible] noncomputable def squareValues : SingularValues ℝ := ⟨fun _ => List.replicate 4 (1 + 1)⟩

theorem rankAndCondition_square :
    @Dense.rankAndCondition ℝ _ squareValues _ _ (square.controlled .underActuated) = (4, 1) := by
  have hdim : max Strategy.underActuated.axes.length square.rotorCount = 4 := rfl
  refine @rankAndCondition_replicate squareValues _ _ 3 _ (1 + 1) rfl (by norm_num) ?_
  rw [hdim]
  norm_num [Dense.roundoff]

noncomputable def squareRows : Dense ℝ 4 4 :=
  .ofFn fun i j => (square.columns.get j).get (Strategy.underActuated.axes.get i)

theorem injective_squareRows : squareRows.Injective := by
  intro y hy
  simp only [squareRows, Dense.entry_ofFn, Fin.sum_univ_four] at hy
  have h0 : 1 * y.get 0 + 1 * y.get 1 + 1 * y.get 2 + 1 * y.get 3 = 0 := hy 0
  have h1 : 1 * y.get 0 + 1 * y.get 1 + -1 * y.get 2 + -1 * y.get 3 = 0 := hy 1
  have h2 : -1 * y.get 0 + 1 * y.get 1 + 1 * y.get 2 + -1 * y.get 3 = 0 := hy 2
  have h3 : 1 * y.get 0 + -1 * y.get 1 + 1 * y.get 2 + -1 * y.get 3 = 0 := hy 3
  have z0 : y.get 0 = 0 := by linarith
  have z1 : y.get 1 = 0 := by linarith
  have z2 : y.get 2 = 0 := by linarith
  have z3 : y.get 3 = 0 := by linarith
  intro j
  fin_cases j
  exacts [z0, z1, z2, z3]

theorem staticThrust_square :
    ∃ t, @staticThrust ℝ _ squareValues square .underActuated 10 (Wrench.gravity 1 9) = .ok t := by
  have hcount : square.rotorCount = Strategy.underActuated.axes.length := rfl
  refine @staticThrust_isOk squareValues _ _ _ 1 hcount rankAndCondition_square (by norm_num) ?_ _
  simp only [controlled, Dense.entry_ofFn]
  exact injective_squareRows

theorem staticThrust_shortest_square :
    ∃ t, @staticThrust ℝ _ squareValues square .underActuated 10 (Wrench.gravity 1 9) = .ok t ∧
      t.thrust.length = square.rotorCount ∧
      square.Balances .underActuated (Wrench.gravity 1 9) t.thrust ∧
      ∀ other, other.length = square.rotorCount →
        square.Balances .underActuated (Wrench.gravity 1 9) other → other ≠ t.thrust →
          length t.thrust < length other := by
  obtain ⟨t, ht⟩ := staticThrust_square
  exact ⟨t, ht, @staticThrust_shortest squareValues _ _ _ _ _ ht⟩

end Allocation

end Multirotor
