import Mathlib
import Multirotor.Scalar

/-!
# Floating-point numbers

What computing with floats keeps of the laws of numbers. Those that are
defined are linearly ordered, by sign, exponent and mantissa (`Unpacked.key`),
and two numbers other than zero compare equal only if they are the same
(`Scalar.beq_iff_eq`). A sum, difference or product is finite only if both
operands are (`Scalar.isFinite_of_add`), and a difference is undefined exactly
if one of them is, or both are the same infinity (`Scalar.isUndefined_sub_iff`).
-/

namespace Multirotor

open Float.Model

/-! ## Numbers by sign, exponent and mantissa -/

namespace Unpacked

variable {f : Format} {u v : UnpackedFloat}

theorem isFinite_of_add (h : (UnpackedFloat.add f u v).isFinite = true) :
    u.isFinite = true ∧ v.isFinite = true := by
  cases u <;> cases v <;> grind [UnpackedFloat.add, UnpackedFloat.isFinite]

theorem isFinite_of_sub (h : (UnpackedFloat.sub f u v).isFinite = true) :
    u.isFinite = true ∧ v.isFinite = true := by
  cases u <;> cases v <;> grind [UnpackedFloat.sub, UnpackedFloat.isFinite]

theorem isFinite_of_mul (h : (UnpackedFloat.mul f u v).isFinite = true) :
    u.isFinite = true ∧ v.isFinite = true := by
  cases u <;> cases v <;> grind [UnpackedFloat.mul, UnpackedFloat.isFinite]

/-- What is rounded is a number. -/
theorem isNaN_normalize (m e : ℤ) (s : UnpackedFloat.Sign) :
    (UnpackedFloat.normalize f m e s).isNaN = false := by
  have hround : ∀ t k, (UnpackedFloat.round f t k e).isNaN = false := fun t k => by
    unfold UnpackedFloat.round UnpackedFloat.roundWithAccuracy
    dsimp only
    split <;> rfl
  unfold UnpackedFloat.normalize
  split
  · exact hround _ _
  · rfl
  · exact hround _ _

/-! ### Order -/

/-- Where a number stands among the others; the two zeros stand in one place. -/
def key : UnpackedFloat → ℤ ×ₗ ℤ ×ₗ ℤ
  | .notANumber => toLex (0, toLex (0, 0))
  | .infinity .negative => toLex (-2, toLex (0, 0))
  | .finite .negative m e _ => toLex (-1, toLex (-e, -m))
  | .zero _ => toLex (0, toLex (0, 0))
  | .finite .positive m e _ => toLex (1, toLex (e, m))
  | .infinity .positive => toLex (2, toLex (0, 0))

theorem key_le (u : UnpackedFloat) : key u ≤ toLex (2, toLex (0, 0)) := by
  rcases u with (_ | _) | _ | _ | ⟨_ | _, m, e, hm⟩ <;> simp [key, Prod.Lex.toLex_le_toLex]

theorem compare_then_lt (e e' : ℤ) (m m' : ℕ) :
    (compare e e').then (compare m m') = .lt ↔ e < e' ∨ e = e' ∧ m < m' := by
  rw [Ordering.then_eq_lt, compare_lt_iff_lt, compare_eq_iff_eq, compare_lt_iff_lt]

theorem compare_then_gt (e e' : ℤ) (m m' : ℕ) :
    (compare e e').then (compare m m') = .gt ↔ e' < e ∨ e = e' ∧ m' < m := by
  rw [Ordering.then_eq_gt, compare_gt_iff_gt, compare_eq_iff_eq, compare_gt_iff_gt]

theorem lt_iff_key :
    u.lt v = true ↔ u.isNaN = false ∧ v.isNaN = false ∧ key u < key v := by
  have hsign : ∀ s t : UnpackedFloat.Sign, compare s t = .lt ↔ s = .negative ∧ t = .positive := by
    intro s t
    cases s <;> cases t <;> simp [compare]
  rcases u with (_ | _) | _ | _ | ⟨_ | _, m, e, hm⟩ <;>
    rcases v with (_ | _) | _ | _ | ⟨_ | _, m', e', hm'⟩ <;>
    simp [UnpackedFloat.lt, UnpackedFloat.compare, UnpackedFloat.isNaN, key,
      Prod.Lex.toLex_lt_toLex, compare_then_lt, compare_then_gt, hsign]

theorem beq_iff_key :
    u.beq v = true ↔ u.isNaN = false ∧ v.isNaN = false ∧ key u = key v := by
  have hsign : ∀ s t : UnpackedFloat.Sign, compare s t = .eq ↔ s = t := by
    intro s t
    cases s <;> cases t <;> simp [compare]
  rcases u with (_ | _) | _ | _ | ⟨_ | _, m, e, hm⟩ <;>
    rcases v with (_ | _) | _ | _ | ⟨_ | _, m', e', hm'⟩ <;>
    simp [UnpackedFloat.beq, UnpackedFloat.compare, UnpackedFloat.isNaN, key, hsign]

theorem le_iff_lt_or_beq : u.le v = true ↔ u.lt v = true ∨ u.beq v = true := by
  unfold UnpackedFloat.le UnpackedFloat.lt UnpackedFloat.beq
  cases u.compare v with
  | none => decide
  | some o => cases o <;> decide

theorem le_iff_key : u.le v = true ↔ u.isNaN = false ∧ v.isNaN = false ∧ key u ≤ key v := by
  rw [le_iff_lt_or_beq, lt_iff_key, beq_iff_key, le_iff_lt_or_eq]
  tauto

/-- Only the two zeros share a place. -/
theorem eq_of_key {s : UnpackedFloat.Sign} {m : ℕ} {e : ℤ} {hm : 0 < m} (hu : u.isNaN = false)
    (h : key u = key (.finite s m e hm)) : u = .finite s m e hm := by
  rcases u with (_ | _) | _ | _ | ⟨_ | _, m', e', hm'⟩ <;> cases s <;>
    simp_all [UnpackedFloat.isNaN, key]

/-! ### Undefined results -/

theorem isNaN_of_isFinite (h : u.isFinite = true) : u.isNaN = false := by
  cases u with
  | notANumber => cases h
  | infinity s => rfl
  | zero s => rfl
  | finite s m e hm => rfl

theorem isNaN_abs (u : UnpackedFloat) : u.abs.isNaN = u.isNaN := by
  cases u <;> rfl

theorem beq_of_not_isFinite : u.isFinite = false ∧ u.beq v = true ↔
    ∃ s, u = .infinity s ∧ v = .infinity s := by
  rw [beq_iff_key]
  rcases u with (_ | _) | _ | _ | ⟨_ | _, m, e, hm⟩ <;>
    rcases v with (_ | _) | _ | _ | ⟨_ | _, m', e', hm'⟩ <;>
    simp [UnpackedFloat.isNaN, UnpackedFloat.isFinite, key]

/-- Infinity minus infinity is undefined. -/
theorem isNaN_infinity_sub (s t : UnpackedFloat.Sign) :
    (UnpackedFloat.sub f (.infinity s) (.infinity t)).isNaN = true ↔ s = t := by
  cases s <;> cases t
  exacts [iff_of_true rfl rfl, iff_of_false Bool.false_ne_true nofun,
    iff_of_false Bool.false_ne_true nofun, iff_of_true rfl rfl]

theorem isNaN_sub : (UnpackedFloat.sub f u v).isNaN = true ↔
    u.isNaN = true ∨ v.isNaN = true ∨ ∃ s, u = .infinity s ∧ v = .infinity s := by
  cases u <;> cases v
  case infinity.infinity s t =>
    rw [isNaN_infinity_sub]
    grind [UnpackedFloat.isNaN]
  all_goals grind [UnpackedFloat.sub, UnpackedFloat.isNaN, isNaN_normalize]

/-! ### Packing -/

theorem unpack_pack_infinity (s : UnpackedFloat.Sign) :
    (pack (.infinity s)).unpack = .infinity s := by
  cases s <;> rfl

theorem isFinite_of_pack (h : (pack u).unpack.isFinite = true) : u.isFinite = true := by
  cases u with
  | notANumber => exact absurd h (by decide)
  | infinity s =>
    rw [unpack_pack_infinity] at h
    exact h
  | zero s => rfl
  | finite s m e hm => rfl

/-- The bits of what is undefined have the largest exponent, and a mantissa. -/
theorem isNaN_unpack {b : BitVec Format.binary64.numBits}
    (h : UnpackedFloat.unpackExponent b ≠ -1#_ ∨ UnpackedFloat.unpackMantissa b = 0#_) :
    (UnpackedFloat.unpack Format.binary64 b).isNaN = false := by
  unfold UnpackedFloat.unpack
  dsimp only
  split
  · rename_i he
    rw [if_pos (h.resolve_left (not_not_intro he))]
    rfl
  · split
    · split <;> rfl
    · rfl

theorem eq_of_parts {b b' : BitVec Format.binary64.numBits}
    (hs : UnpackedFloat.unpackSign b = UnpackedFloat.unpackSign b')
    (he : UnpackedFloat.unpackExponent b = UnpackedFloat.unpackExponent b')
    (hm : UnpackedFloat.unpackMantissa b = UnpackedFloat.unpackMantissa b') : b = b' := by
  have hparts : ∀ b : BitVec Format.binary64.numBits, b.toNat =
      (UnpackedFloat.unpackSign b).toNat * 2 ^ 63 +
        (UnpackedFloat.unpackExponent b).toNat * 2 ^ 52 +
          (UnpackedFloat.unpackMantissa b).toNat := fun b => by
    have hb : b.toNat < 2 ^ 64 := b.isLt
    simp only [UnpackedFloat.unpackSign, UnpackedFloat.unpackExponent,
      UnpackedFloat.unpackMantissa, BitVec.toNat_cast, BitVec.extractLsb_toNat,
      Nat.shiftRight_eq_div_pow]
    norm_num
    omega
  refine BitVec.eq_of_toNat_eq ?_
  rw [hparts b, hparts b', hs, he, hm]

theorem toBitVec_ofBitVec : ∀ b : BitVec 1, (UnpackedFloat.Sign.ofBitVec b).toBitVec = b := by
  decide

/-- The bits of a number other than zero follow from its parts. -/
theorem parts_of_unpack {b : BitVec Format.binary64.numBits} {s : UnpackedFloat.Sign} {m : ℕ}
    {e : ℤ} {hm : 0 < m} (h : UnpackedFloat.unpack Format.binary64 b = .finite s m e hm) :
    UnpackedFloat.unpackSign b = s.toBitVec ∧
      UnpackedFloat.unpackExponent b =
        (if m < 2 ^ 52 then 0 else BitVec.ofNat 11 (e + 1075).toNat) ∧
      UnpackedFloat.unpackMantissa b = BitVec.ofNat 52 m := by
  have hlt : (UnpackedFloat.unpackMantissa b).toNat < 2 ^ 52 :=
    (UnpackedFloat.unpackMantissa b).isLt
  have hlead : (1#1 ++ UnpackedFloat.unpackMantissa b).toNat =
      2 ^ 52 + (UnpackedFloat.unpackMantissa b).toNat := by
    rw [BitVec.toNat_append, ← Nat.shiftLeft_add_eq_or_of_lt hlt]
    rfl
  have hbias : (Format.binary64.exponentBias : ℤ) +
      (Format.binary64.mantissaBitsWithoutImplicit : ℤ) = 1075 := rfl
  have hself : ∀ {n : ℕ} (x : BitVec n), BitVec.ofNat n x.toNat = x := fun x => by
    rw [BitVec.ofNat_toNat, BitVec.setWidth_eq]
  unfold UnpackedFloat.unpack at h
  dsimp only at h
  rw [hbias] at h
  split at h
  · split at h <;> cases h
  split at h
  · rename_i hzero
    split at h
    · cases h
    · cases h
      rw [if_pos hlt]
      exact ⟨(toBitVec_ofBitVec _).symm, hzero, (hself _).symm⟩
  · rw [UnpackedFloat.finite.injEq] at h
    obtain ⟨rfl, rfl, rfl⟩ := h
    rw [hlead, if_neg (by omega)]
    refine ⟨(toBitVec_ofBitVec _).symm, ?_, BitVec.eq_of_toNat_eq ?_⟩
    · rw [sub_add_cancel, Int.toNat_natCast]
      exact (hself _).symm
    · rw [BitVec.toNat_ofNat]
      exact ((Nat.add_mod_left _ _).trans (Nat.mod_eq_of_lt hlt)).symm

theorem ofNat_ne_neg_one {n : ℕ} (h : ¬2 ^ 11 ≤ n + 1) : BitVec.ofNat 11 n ≠ -1#11 := by
  intro he
  have hmod : n % 2048 = 2047 := by simpa using congrArg BitVec.toNat he
  omega

/-- A number is packed as a number, or as infinity if its exponent is too large. -/
theorem isNaN_pack (u : UnpackedFloat) : (pack u).unpack.isNaN = u.isNaN := by
  cases u with
  | notANumber => rfl
  | infinity s => rw [unpack_pack_infinity]
  | zero s => cases s <;> rfl
  | finite s m e hm =>
    refine isNaN_unpack ?_
    change UnpackedFloat.unpackExponent (UnpackedFloat.pack Format.binary64 _) ≠ _ ∨
      UnpackedFloat.unpackMantissa (UnpackedFloat.pack Format.binary64 _) = _
    unfold UnpackedFloat.pack
    dsimp only
    split
    · exact .inr UnpackedFloat.unpackMantissa_packComponents
    · rename_i hfits
      split
      · refine .inl ?_
        rw [UnpackedFloat.unpackExponent_packComponents]
        exact ofNat_ne_neg_one hfits
      · refine .inl ?_
        rw [UnpackedFloat.unpackExponent_packComponents]
        decide

end Unpacked

/-! ## Floats -/

namespace Scalar

variable {x y : Float}

theorem isFinite_of_add (h : Scalar.isFinite (x + y) = true) :
    Scalar.isFinite x = true ∧ Scalar.isFinite y = true :=
  Unpacked.isFinite_of_add (Unpacked.isFinite_of_pack h)

theorem isFinite_of_sub (h : Scalar.isFinite (x - y) = true) :
    Scalar.isFinite x = true ∧ Scalar.isFinite y = true :=
  Unpacked.isFinite_of_sub (Unpacked.isFinite_of_pack h)

theorem isFinite_of_mul (h : Scalar.isFinite (x * y) = true) :
    Scalar.isFinite x = true ∧ Scalar.isFinite y = true :=
  Unpacked.isFinite_of_mul (Unpacked.isFinite_of_pack h)

theorem isUndefined_float (x : Float) : Scalar.isUndefined x = x.toModel.unpack.isNaN := by
  have hself : (x == x) = x.toModel.unpack.beq x.toModel.unpack := rfl
  have hkey := Unpacked.beq_iff_key (u := x.toModel.unpack) (v := x.toModel.unpack)
  rw [isUndefined, hself]
  cases h : x.toModel.unpack.isNaN <;> simp_all

theorem isUndefined_of_isFinite (h : Scalar.isFinite x = true) : isUndefined x = false := by
  rw [isUndefined_float]
  exact Unpacked.isNaN_of_isFinite h

/-- Equal numbers are the same, unless they are zero. -/
theorem beq_iff_eq {s : UnpackedFloat.Sign} {m : ℕ} {e : ℤ} {hm : 0 < m}
    (hy : y.toModel.unpack = .finite s m e hm) : (x == y) = true ↔ x = y := by
  refine Unpacked.beq_iff_key.trans ⟨fun ⟨hx, _, hkey⟩ => ?_, ?_⟩
  · rw [hy] at hkey
    have hxy := Unpacked.eq_of_key hx hkey
    obtain ⟨hs, he, hm⟩ := Unpacked.parts_of_unpack hxy
    obtain ⟨hs', he', hm'⟩ := Unpacked.parts_of_unpack hy
    obtain ⟨⟨⟨⟨b⟩⟩, _⟩⟩ := x
    obtain ⟨⟨⟨⟨b'⟩⟩, _⟩⟩ := y
    have hb := Unpacked.eq_of_parts (hs.trans hs'.symm) (he.trans he'.symm) (hm.trans hm'.symm)
    cases hb
    rfl
  · rintro rfl
    rw [hy]
    exact ⟨rfl, rfl, rfl⟩

theorem isUndefined_abs (x : Float) : isUndefined (Scalar.abs x) = isUndefined x := by
  rw [isUndefined_float, isUndefined_float]
  exact (Unpacked.isNaN_pack _).trans (Unpacked.isNaN_abs _)

/-- A difference is undefined if an operand is, or between an infinity and itself. -/
theorem isUndefined_sub_iff : isUndefined (x - y) = true ↔
    isUndefined x = true ∨ isUndefined y = true ∨ Scalar.isFinite x = false ∧ (x == y) = true := by
  have hsub : isUndefined (x - y) =
      (UnpackedFloat.sub Format.binary64 x.toModel.unpack y.toModel.unpack).isNaN := by
    rw [isUndefined_float]
    exact Unpacked.isNaN_pack _
  rw [hsub, Unpacked.isNaN_sub, ← Unpacked.beq_of_not_isFinite, isUndefined_float,
    isUndefined_float]
  rfl

/-! ### Order -/

theorem lt_iff_key : x < y ↔ isUndefined x = false ∧ isUndefined y = false ∧
    Unpacked.key x.toModel.unpack < Unpacked.key y.toModel.unpack := by
  rw [isUndefined_float, isUndefined_float, ← Unpacked.lt_iff_key]
  exact decide_eq_true_iff

theorem le_iff_key : x ≤ y ↔ isUndefined x = false ∧ isUndefined y = false ∧
    Unpacked.key x.toModel.unpack ≤ Unpacked.key y.toModel.unpack := by
  rw [isUndefined_float, isUndefined_float, ← Unpacked.le_iff_key]
  exact decide_eq_true_iff

theorem not_lt_iff (hx : Scalar.isFinite x = true) (hy : Scalar.isFinite y = true) :
    ¬x < y ↔ y ≤ x := by
  simp only [lt_iff_key, le_iff_key, isUndefined_of_isFinite hx, isUndefined_of_isFinite hy,
    true_and, not_lt]

theorem not_le_iff (hx : Scalar.isFinite x = true) (hy : Scalar.isFinite y = true) :
    ¬x ≤ y ↔ y < x := by
  simp only [lt_iff_key, le_iff_key, isUndefined_of_isFinite hx, isUndefined_of_isFinite hy,
    true_and, not_le]

theorem lt_trans {z : Float} (hxy : x < y) (hyz : y < z) : x < z := by
  rw [lt_iff_key] at hxy hyz ⊢
  exact ⟨hxy.1, hyz.2.1, hxy.2.2.trans hyz.2.2⟩

theorem lt_of_not_lt_of_lt {z : Float} (hx : isUndefined x = false) (hyx : ¬y < x) (hyz : y < z) :
    x < z := by
  rw [lt_iff_key] at hyx hyz ⊢
  obtain ⟨hy, hz, hlt⟩ := hyz
  have hle := not_lt.mp fun h => hyx ⟨hy, hx, h⟩
  exact ⟨hx, hz, hle.trans_lt hlt⟩

theorem isUndefined_larger (hx : isUndefined x = false) (y : Float) :
    isUndefined (larger x y) = false := by
  unfold larger
  split
  · exact hx
  · rename_i h
    exact Bool.eq_false_iff.mpr (not_or.mp h).2

theorem larger_lt_iff (hx : isUndefined x = false) {t : Float} :
    larger x y < t ↔ x < t ∧ (isUndefined y = true ∨ y < t) := by
  unfold larger
  split
  · rename_i h
    exact ⟨fun hxt => ⟨hxt, h.symm.imp_right fun hyx => lt_trans hyx hxt⟩, And.left⟩
  · rename_i h
    obtain ⟨hyx, hy⟩ := not_or.mp h
    exact ⟨fun hyt => ⟨lt_of_not_lt_of_lt hx hyx hyt, .inr hyt⟩, fun hxt => hxt.2.resolve_left hy⟩

/-- The largest of the numbers lies below a bound if all that are defined do. -/
theorem foldl_larger_lt_iff {xs : List Float} {t : Float} (hx : isUndefined x = false) :
    xs.foldl larger x < t ↔ x < t ∧ ∀ y ∈ xs, isUndefined y = true ∨ y < t := by
  induction xs generalizing x with
  | nil => simp
  | cons y xs ih =>
    rw [List.foldl_cons, ih (isUndefined_larger hx y), larger_lt_iff hx, List.forall_mem_cons,
      and_assoc]

theorem not_unbounded_lt (x : Float) : ¬(unbounded : Float) < x := by
  rw [lt_iff_key]
  rintro ⟨-, -, hlt⟩
  have hkey : Unpacked.key (unbounded : Float).toModel.unpack = toLex (2, toLex (0, 0)) := by
    decide
  rw [hkey] at hlt
  exact absurd hlt (not_lt.mpr (Unpacked.key_le _))

end Scalar

end Multirotor
