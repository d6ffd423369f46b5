import Multirotor.Proofs.Floating
import Multirotor.Sensitivity.Report

/-!
# What a comparison overlooks

Two Jacobians pass if they have one shape and each entry either differs by
less than the tolerance or has no difference at all (`compare_passed_iff`):
the largest difference leaves the undefined ones out. So a comparison can be
relied on as far as all differences are defined, and not beyond.
-/

namespace Multirotor

/-! ## Entries -/

namespace Jacobian

variable {α : Type}

def IsMatrix (j : Jacobian α) : Prop := ∀ column ∈ j.columns, column.length = j.rows

def entry? (j : Jacobian α) (row column : Nat) : Option α := j.columns[column]?.bind (·[row]?)

theorem mem_zip_iff {l l' : List α} {x y : α} :
    (x, y) ∈ l.zip l' ↔ ∃ i : Nat, l[i]? = some x ∧ l'[i]? = some y := by
  simp only [List.mem_iff_getElem?, List.getElem?_zip_eq_some]

/-- Of lists that correspond in length, so do the entries when they are appended. -/
theorem mem_zip_flatten {l l' : List (List α)} {n : Nat} {x y : α} (hlen : l.length = l'.length)
    (hl : ∀ c ∈ l, c.length = n) (hl' : ∀ c ∈ l', c.length = n) :
    (x, y) ∈ l.flatten.zip l'.flatten ↔
      ∃ column row : Nat,
        l[column]?.bind (·[row]?) = some x ∧ l'[column]?.bind (·[row]?) = some y := by
  induction l generalizing l' with
  | nil => simp
  | cons c l ih =>
    cases l' with
    | nil => simp at hlen
    | cons c' l' =>
      obtain ⟨hc, hl⟩ := List.forall_mem_cons.mp hl
      obtain ⟨hc', hl'⟩ := List.forall_mem_cons.mp hl'
      rw [List.flatten_cons, List.flatten_cons, List.zip_append (hc.trans hc'.symm),
        List.mem_append, mem_zip_iff, ih (Nat.succ.inj hlen) hl hl']
      constructor
      · rintro (h | ⟨column, h⟩)
        · exact ⟨0, h⟩
        · exact ⟨column + 1, h⟩
      · rintro ⟨column, h⟩
        cases column with
        | zero => exact .inl h
        | succ column => exact .inr ⟨column, h⟩

theorem sameShape_iff {a b : Jacobian α} :
    a.sameShape b = true ↔ a.rows = b.rows ∧ a.columns.length = b.columns.length := by
  simp [sameShape]

end Jacobian

/-- Entries without a difference: one of them is undefined, or both are the same infinity. -/
def Incomparable (x y : Float) : Prop :=
  Scalar.isUndefined x = true ∨ Scalar.isUndefined y = true ∨
    Scalar.isFinite x = false ∧ (x == y) = true

namespace Jacobian

variable {a b : Jacobian Float} {tolerance : Float}

/-- What holds of each two entries at the same place. -/
def Entries (P : Float → Float → Prop) (a b : Jacobian Float) : Prop :=
  ∀ row column x y, a.entry? row column = some x → b.entry? row column = some y → P x y

theorem forall_mem_zipWith_iff {P : Float → Prop} (ha : a.IsMatrix) (hb : b.IsMatrix)
    (h : a.sameShape b = true) :
    (∀ d ∈ a.columns.flatten.zipWith (fun x y => Scalar.abs (x - y)) b.columns.flatten, P d) ↔
      Entries (fun x y => P (Scalar.abs (x - y))) a b := by
  obtain ⟨hrows, hcolumns⟩ := sameShape_iff.mp h
  have hmem := fun x y => mem_zip_flatten (x := x) (y := y) hcolumns ha (hrows ▸ hb)
  rw [← List.map_uncurry_zip_eq_zipWith, List.forall_mem_map]
  constructor
  · intro hall row column x y hx hy
    exact hall (x, y) ((hmem x y).mpr ⟨column, row, hx, hy⟩)
  · rintro hall ⟨x, y⟩ hxy
    obtain ⟨column, row, hx, hy⟩ := (hmem x y).mp hxy
    exact hall row column x y hx hy

/-- The Jacobians have one shape, and no entry differs by the tolerance or more. -/
def Agrees (tolerance : Float) (a b : Jacobian Float) : Prop :=
  a.sameShape b = true ∧ Entries (fun x y => Scalar.abs (x - y) < tolerance) a b

theorem maxDifference_lt_iff (ht : 0 < tolerance) (ha : a.IsMatrix) (hb : b.IsMatrix) :
    a.maxDifference b < tolerance ↔ a.sameShape b = true ∧
      Entries (fun x y => Incomparable x y ∨ Scalar.abs (x - y) < tolerance) a b := by
  have hundefined : ∀ x y : Float,
      Scalar.isUndefined (Scalar.abs (x - y)) = true ↔ Incomparable x y := fun x y => by
    rw [Scalar.isUndefined_abs, Scalar.isUndefined_sub_iff, Incomparable]
  unfold maxDifference
  split
  · rename_i hshape
    rw [Scalar.foldl_larger_lt_iff (by decide), forall_mem_zipWith_iff ha hb hshape]
    simp only [hundefined]
    exact ⟨fun h => ⟨hshape, h.2⟩, fun h => ⟨ht, h.2⟩⟩
  · rename_i hshape
    exact iff_of_false (Scalar.not_unbounded_lt _) fun h => hshape h.1

end Jacobian

/-! ## Reports -/

namespace Sensitivity

variable {a b : Sensitivity Float} {tolerance : Float}

theorem get?_compare (tolerance : Float) (a b : Sensitivity Float) (q : Quantity) :
    (compare tolerance a b).get? q = some (compareQuantity tolerance a b q) := by
  cases q <;> rfl

theorem passed_compare (tolerance : Float) (a b : Sensitivity Float) :
    (compare tolerance a b).passed = true ↔
      ∀ q, (compareQuantity tolerance a b q).passed = true := by
  have hall : ∀ q, q ∈ Quantity.all := fun q => by
    cases q <;> decide
  unfold Report.passed compare
  rw [List.all_map, List.all_eq_true]
  exact ⟨fun h q => h q (hall q), fun h q _ => h q⟩

def IsMatrices (s : Sensitivity Float) : Prop := ∀ q, (s.get q).IsMatrix

/-- A quantity passes exactly if its shapes agree and its entries do as far as they have a
difference, and the report exactly if every quantity does. Where all entries have one, passing is
agreement. -/
theorem compare_passed_iff (ht : 0 < tolerance) (ha : a.IsMatrices) (hb : b.IsMatrices) :
    (∀ q, ∃ report, (compare tolerance a b).get? q = some report ∧
      (report.passed = true ↔ (a.get q).sameShape (b.get q) = true ∧
        Jacobian.Entries (fun x y => Incomparable x y ∨ Scalar.abs (x - y) < tolerance)
          (a.get q) (b.get q)) ∧
      (Jacobian.Agrees tolerance (a.get q) (b.get q) → report.passed = true) ∧
      (Jacobian.Entries (fun x y => ¬Incomparable x y) (a.get q) (b.get q) →
        report.passed = true → Jacobian.Agrees tolerance (a.get q) (b.get q))) ∧
    ((compare tolerance a b).passed = true ↔
      ∀ q report, (compare tolerance a b).get? q = some report → report.passed = true) := by
  constructor
  · intro q
    have hpassed : (compareQuantity tolerance a b q).passed = true ↔ _ :=
      decide_eq_true_iff.trans (Jacobian.maxDifference_lt_iff ht (ha q) (hb q))
    refine ⟨_, get?_compare tolerance a b q, hpassed, fun h => hpassed.mpr ⟨h.1, ?_⟩, fun hdiff h =>
      ⟨(hpassed.mp h).1, ?_⟩⟩
    · exact fun row column x y hx hy => .inr (h.2 row column x y hx hy)
    · exact fun row column x y hx hy =>
        ((hpassed.mp h).2 row column x y hx hy).resolve_left (hdiff row column x y hx hy)
  · rw [passed_compare]
    simp only [get?_compare, Option.some.injEq, forall_eq']

/-! ### A single entry -/

def single (x : Float) : Sensitivity Float :=
  ⟨⟨1, [[x]]⟩, ⟨0, []⟩, ⟨0, []⟩, ⟨0, []⟩, ⟨0, []⟩, ⟨0, []⟩⟩

theorem isMatrices_single (x : Float) : (single x).IsMatrices := by
  intro q column hc
  cases q
  · rw [List.mem_singleton.mp hc]
    rfl
  all_goals cases hc

theorem entry?_single {x y : Float} {row column : Nat}
    (h : (single x).cog.entry? row column = some y) : y = x := by
  cases column with
  | zero =>
    cases row with
    | zero => exact (Option.some.inj h).symm
    | succ row => cases h
  | succ column => cases h

theorem compare_passed_iff_single :
    0 < (0.5 : Float) ∧ (single 0.5).IsMatrices ∧ (single 0.25).IsMatrices ∧
      (∃ report, (compare 0.5 (single 0.5) (single 0.25)).get? .cog = some report ∧
        report.passed = true) ∧ (single 0.5).cog.Agrees 0.5 (single 0.25).cog := by
  have ht : 0 < (0.5 : Float) := by decide
  have ha := isMatrices_single 0.5
  have hb := isMatrices_single 0.25
  obtain ⟨hall, -⟩ := compare_passed_iff ht ha hb
  obtain ⟨report, hreport, hiff, -, hagrees⟩ := hall .cog
  have hpassed : report.passed = true := by
    rw [get?_compare, Option.some.injEq] at hreport
    rw [← hreport]
    decide
  refine ⟨ht, ha, hb, ⟨report, hreport, hpassed⟩, hagrees (fun row column x y hx hy => ?_) hpassed⟩
  rw [entry?_single hx, entry?_single hy]
  unfold Incomparable
  decide

/-- An undefined derivative passes. -/
theorem not_agrees_of_passed :
    0 < (0.001 : Float) ∧ (single (0.0 / 0.0)).IsMatrices ∧ (single 0).IsMatrices ∧
      Scalar.isUndefined (0.0 / 0.0 : Float) = true ∧
      (compare 0.001 (single (0.0 / 0.0)) (single 0)).passed = true ∧
      ¬(single (0.0 / 0.0)).cog.Agrees 0.001 (single 0).cog := by
  refine ⟨by decide, isMatrices_single _, isMatrices_single _, by decide, by decide, fun h => ?_⟩
  have hlt := h.2 0 0 _ _ rfl rfl
  exact absurd hlt (by decide)

end Sensitivity

end Multirotor
