import Multirotor.Proofs.Exact.Turn

/-!
# Rates

How fast a curve of vectors or matrices changes where it passes zero. Sums and
products follow the rules of differentiation, and a turn about an axis moves a
vector along their cross product (`hasRate_turn`).
-/

namespace Multirotor

namespace Vec3

/-- The derivative of the curve at zero. -/
structure HasRate (f : ℝ → Vec3 ℝ) (v : Vec3 ℝ) : Prop where
  x : HasDerivAt (fun t => (f t).x) v.x 0
  y : HasDerivAt (fun t => (f t).y) v.y 0
  z : HasDerivAt (fun t => (f t).z) v.z 0

theorem hasRate_const (a : Vec3 ℝ) : HasRate (fun _ => a) 0 :=
  ⟨hasDerivAt_const 0 a.x, hasDerivAt_const 0 a.y, hasDerivAt_const 0 a.z⟩

section
variable {f g : ℝ → Vec3 ℝ} {v w : Vec3 ℝ} {s : ℝ → ℝ} {s' : ℝ}

theorem HasRate.congr_rate (h : HasRate f v) (e : v = w) : HasRate f w := e ▸ h

theorem HasRate.add (hf : HasRate f v) (hg : HasRate g w) :
    HasRate (fun t => f t + g t) (v + w) :=
  ⟨hf.x.add hg.x, hf.y.add hg.y, hf.z.add hg.z⟩

theorem HasRate.sub (hf : HasRate f v) (hg : HasRate g w) :
    HasRate (fun t => f t - g t) (v - w) :=
  ⟨hf.x.sub hg.x, hf.y.sub hg.y, hf.z.sub hg.z⟩

theorem HasRate.mul (hf : HasRate f v) (hs : HasDerivAt s s' 0) :
    HasRate (fun t => (f t * s t : Vec3 ℝ)) (v * s 0 + f 0 * s') :=
  ⟨hf.x.mul hs, hf.y.mul hs, hf.z.mul hs⟩

theorem HasRate.mul_const (hf : HasRate f v) (k : ℝ) :
    HasRate (fun t => (f t * k : Vec3 ℝ)) (v * k) :=
  ⟨hf.x.mul_const k, hf.y.mul_const k, hf.z.mul_const k⟩

theorem HasRate.dot (hf : HasRate f v) (hg : HasRate g w) :
    HasDerivAt (fun t => (f t).dot (g t)) (v.dot (g 0) + (f 0).dot w) 0 := by
  refine (((hf.x.mul hg.x).add (hf.y.mul hg.y)).add (hf.z.mul hg.z)).congr_deriv ?_
  simp only [dot_eq]
  ring

theorem HasRate.cross (hf : HasRate f v) (hg : HasRate g w) :
    HasRate (fun t => (f t).cross (g t)) (v.cross (g 0) + (f 0).cross w) where
  x := ((hf.y.mul hg.z).sub (hf.z.mul hg.y)).congr_deriv (by simp; ring)
  y := ((hf.z.mul hg.x).sub (hf.x.mul hg.z)).congr_deriv (by simp; ring)
  z := ((hf.x.mul hg.y).sub (hf.y.mul hg.x)).congr_deriv (by simp; ring)

theorem HasRate.apply (a : Mat3 ℝ) (hf : HasRate f v) :
    HasRate (fun t => a.apply (f t)) (a.apply v) where
  x := ((hasRate_const a.row₀).dot hf).congr_deriv (by simp [Mat3.apply_eq])
  y := ((hasRate_const a.row₁).dot hf).congr_deriv (by simp [Mat3.apply_eq])
  z := ((hasRate_const a.row₂).dot hf).congr_deriv (by simp [Mat3.apply_eq])

theorem HasRate.rotate {q : Quat ℝ} (hq : q.Unit) (hf : HasRate f v) :
    HasRate (fun t => q.rotate (f t)) (q.rotate v) := by
  simp only [hq.rotate_eq]
  exact hf.apply q.toMatrix

end

theorem HasRate.sum {ι : Type*} {l : List ι} {f : ι → ℝ → Vec3 ℝ} {v : ι → Vec3 ℝ}
    (h : ∀ i ∈ l, HasRate (f i) (v i)) :
    HasRate (fun t => (l.map fun i => f i t).sum) (l.map v).sum := by
  induction l with
  | nil => exact hasRate_const 0
  | cons i l ih =>
    obtain ⟨hi, hl⟩ := List.forall_mem_cons.mp h
    simp only [List.map_cons, List.sum_cons]
    exact hi.add (ih hl)

/-! ## Turns -/

theorem rotate_ofAxisAngle (a v : Vec3 ℝ) (t : ℝ) : (Quat.ofAxisAngle a t).rotate v =
    a.cross v * (2 * Real.sin (t / 2) * Real.cos (t / 2)) +
      a.cross (a.cross v) * (2 * Real.sin (t / 2) * Real.sin (t / 2)) + v := by
  rw [Quat.ofAxisAngle_eq, Quat.rotate_eq]
  ext <;> simp [Quat.vector] <;> ring

theorem hasRate_turn (a v : Vec3 ℝ) :
    HasRate (fun t => (Quat.ofAxisAngle a t).rotate v) (a.cross v) := by
  have hhalf : HasDerivAt (fun t : ℝ => t / 2) (1 / 2) 0 := (hasDerivAt_id 0).div_const 2
  have hsin := hhalf.sin
  have hcos := hhalf.cos
  have hs := (hsin.const_mul 2).mul hcos
  have hd := (hsin.const_mul 2).mul hsin
  simp only [rotate_ofAxisAngle]
  refine ((((hasRate_const (a.cross v)).mul hs).add
    ((hasRate_const (a.cross (a.cross v))).mul hd)).add (hasRate_const v)).congr_rate ?_
  ext <;> simp

end Vec3

/-! ## Matrices -/

namespace Mat3

section
variable (a b : Mat3 ℝ) (u v : Vec3 ℝ) (k : Fin 3)

theorem skew_apply : (skew u).apply v = u.cross v := by
  ext <;> simp [skew, apply_eq, Vec3.dot_eq] <;> ring

theorem neg_skew_apply : (-skew u).apply v = v.cross u := by
  ext <;> simp [skew, apply_eq, Vec3.dot_eq] <;> ring

theorem col_mul : (a * b).col k = a.apply (b.col k) := by
  fin_cases k <;> rfl

theorem apply_unit : a.apply (Vec3.unit k) = a.col k := by
  fin_cases k <;>
    ext <;> simp [col, col₀, col₁, col₂, apply_eq, Vec3.unit, Vec3.unitX, Vec3.unitY, Vec3.unitZ,
      Vec3.dot_eq]

end

def HasRate (f : ℝ → Mat3 ℝ) (a : Mat3 ℝ) : Prop :=
  ∀ k, Vec3.HasRate (fun t => (f t).col k) (a.col k)

end Mat3

/-! ## Lists -/

/-- The lists `f t` are as long as `d` at every `t`, and each of their entries is related to the entry
of `d` at its place. -/
def Entrywise {β γ : Type} (P : (ℝ → β) → γ → Prop) (f : ℝ → List β) (d : List γ) : Prop :=
  ∃ (n : Nat) (entry : Fin n → ℝ → β) (rate : Fin n → γ),
    (∀ t, f t = List.ofFn fun i => entry i t) ∧ d = List.ofFn rate ∧ ∀ i, P (entry i) (rate i)

namespace Entrywise

variable {β γ : Type} {P : (ℝ → β) → γ → Prop} {f g : ℝ → List β} {d e : List γ}

theorem ofFn {n : Nat} {entry : Fin n → ℝ → β} {rate : Fin n → γ} (h : ∀ i, P (entry i) (rate i)) :
    Entrywise P (fun t => List.ofFn fun i => entry i t) (List.ofFn rate) :=
  ⟨n, entry, rate, fun _ => rfl, rfl, h⟩

theorem map {ι : Type} {l : List ι} {entry : ι → ℝ → β} {rate : ι → γ}
    (h : ∀ x ∈ l, P (entry x) (rate x)) :
    Entrywise P (fun t => l.map fun x => entry x t) (l.map rate) := by
  refine ⟨l.length, fun i => entry (l.get i), fun i => rate (l.get i), fun t => ?_, ?_, fun i =>
    h _ (List.get_mem l i)⟩
  · exact (List.ofFn_getElem_eq_map l fun x => entry x t).symm
  · exact (List.ofFn_getElem_eq_map l rate).symm

theorem append (hf : Entrywise P f d) (hg : Entrywise P g e) :
    Entrywise P (fun t => f t ++ g t) (d ++ e) := by
  obtain ⟨m, a, a', ha, rfl, hm⟩ := hf
  obtain ⟨n, b, b', hb, rfl, hn⟩ := hg
  refine ⟨m + n, Fin.append a b, Fin.append a' b', fun t => ?_, (List.ofFn_fin_append _ _).symm,
    fun i => ?_⟩
  · have happend : (fun i => Fin.append a b i t) =
        Fin.append (fun i => a i t) (fun i => b i t) := by
      funext i
      cases i using Fin.addCases with
      | left i => simp
      | right i => simp
    rw [happend, List.ofFn_fin_append, ← ha, ← hb]
  · cases i using Fin.addCases with
    | left i => simpa using hm i
    | right i => simpa using hn i

end Entrywise

end Multirotor
