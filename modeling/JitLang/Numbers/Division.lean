import Mathlib.Data.BitVec
import Mathlib.Data.Int.DivMod

/-! # Signed division with a guard against its two bad divisors

On two's-complement words of any width, `y + 1 ≤ 1` (unsigned, wrapping) holds exactly for the
divisors `0` and `-1`. Dividing by `1` in their place never overflows, and the product then gives the
quotient they should have: `x * 0 = 0`, and `x * -1 = -x`, which wraps where the quotient does.

`truncatedQuotient` is that quotient in terms of the integers, reduced to the word. `IsDivision` is
division with remainder over the integers, truncated toward zero; the remainder `x - y * (x / y)`
composed from words obeys it (`composedRemainder_isRemainder`), the wrapping quotient cancelling against
the wrapping product.
-/

namespace JitLang.Numbers
set_option autoImplicit false

variable {w : ℕ}

theorem ule_one_iff {x : BitVec w} : x.ule 1 = true ↔ x = 0 ∨ x = 1 := by
  rw [BitVec.ule, decide_eq_true_iff]
  constructor
  · intro h
    rcases Nat.eq_zero_or_pos w with rfl | hw
    · exact .inl (BitVec.eq_of_zero_length rfl)
    · have hone : (1 : BitVec w).toNat = 1 := Nat.mod_eq_of_lt (Nat.one_lt_two_pow hw.ne')
      rw [hone] at h
      rcases Nat.le_one_iff_eq_zero_or_eq_one.mp h with h | h
      · exact .inl (BitVec.eq_of_toNat_eq (by simpa using h))
      · exact .inr (BitVec.eq_of_toNat_eq (by rw [h, hone]))
  · rintro (rfl | rfl)
    · exact Nat.zero_le _
    · exact le_rfl

/-- The range test picks out the divisors `0` and `-1`. -/
theorem special_iff {y : BitVec w} : (y + 1).ule 1 = true ↔ y = 0 ∨ y = -1 := by
  rw [ule_one_iff, or_comm]
  refine or_congr ?_ ?_
  · rw [add_eq_right]
  · exact ⟨eq_neg_of_add_eq_zero_left, fun h => by rw [h, neg_add_cancel]⟩

/-- The divisor the guard lets through. -/
def safeDivisor (y : BitVec w) : BitVec w := if (y + 1).ule 1 then 1 else y

theorem safeDivisor_ne_zero (hw : 1 < w) (y : BitVec w) : safeDivisor y ≠ 0 := by
  unfold safeDivisor
  split_ifs with h
  · intro h1
    have hint := congrArg BitVec.toInt h1
    rw [BitVec.ofNat_eq_ofNat, BitVec.toInt_one hw, BitVec.ofNat_eq_ofNat, BitVec.toInt_zero] at hint
    omega
  · exact fun h0 => h (special_iff.mpr (.inl h0))

theorem safeDivisor_ne_neg_one (hw : 1 < w) (y : BitVec w) : safeDivisor y ≠ -1 := by
  unfold safeDivisor
  split_ifs with h
  · intro h1
    have hint := congrArg BitVec.toInt h1
    rw [BitVec.ofNat_eq_ofNat, BitVec.toInt_one hw, BitVec.neg_one_eq_allOnes, BitVec.toInt_allOnes,
      if_pos (by omega)] at hint
    omega
  · exact fun h1 => h (special_iff.mpr (.inr h1))

/-- No division by the guarded divisor is one of those that have no quotient. -/
theorem safeDivisor_admissible (hw : 1 < w) (x y : BitVec w) :
    ¬ (safeDivisor y = 0 ∨ x = BitVec.intMin w ∧ safeDivisor y = -1) := by
  rintro (h | ⟨-, h⟩)
  · exact safeDivisor_ne_zero hw y h
  · exact safeDivisor_ne_neg_one hw y h

theorem sdiv_neg_one (x : BitVec w) : x.sdiv (-1) = -x := by
  apply BitVec.eq_of_toInt_eq
  rcases Nat.eq_zero_or_pos w with rfl | hw
  · exact congrArg BitVec.toInt (BitVec.eq_of_zero_length rfl)
  · have hone : (-1 : BitVec w).toInt = -1 := by
      rw [BitVec.ofNat_eq_ofNat, BitVec.neg_one_eq_allOnes, BitVec.toInt_allOnes, if_pos hw]
    rw [BitVec.toInt_sdiv, hone, BitVec.toInt_neg, Int.tdiv_neg, Int.tdiv_one]

/-- The guarded quotient is the signed quotient, `0` for the divisor `0`. -/
theorem guarded_quotient (x y : BitVec w) :
    (if (y + 1).ule 1 then x * y else x.sdiv (safeDivisor y)) = if y = 0 then 0 else x.sdiv y := by
  by_cases h0 : y = 0
  · have hspecial := special_iff.mpr (.inl h0)
    rw [if_pos hspecial, if_pos h0, h0, mul_zero]
  · rw [if_neg h0]
    by_cases h1 : y = -1
    · have hspecial := special_iff.mpr (.inr h1)
      rw [if_pos hspecial, h1, sdiv_neg_one, mul_neg_one]
    · have hnot : ¬ (y + 1).ule 1 = true := fun h => (special_iff.mp h).elim h0 h1
      rw [if_neg hnot, safeDivisor, if_neg hnot]

/-! ## The quotient of the integers -/

/-- The quotient truncated toward zero and reduced to the word; `0` for the divisor `0`. -/
def truncatedQuotient (x y : BitVec w) : BitVec w :=
  if y = 0 then 0 else BitVec.ofInt w (x.toInt.tdiv y.toInt)

theorem truncatedQuotient_eq (x y : BitVec w) :
    truncatedQuotient x y = if y = 0 then 0 else x.sdiv y := by
  have hsdiv : BitVec.ofInt w (x.toInt.tdiv y.toInt) = x.sdiv y :=
    BitVec.eq_of_toInt_eq (by rw [BitVec.toInt_ofInt, BitVec.toInt_sdiv])
  rw [truncatedQuotient, hsdiv]

/-- The only quotient that wraps is that of the least word by `-1`. -/
theorem truncatedQuotient_toInt {x y : BitVec w} (hy : y ≠ 0)
    (h : ¬ (x = BitVec.intMin w ∧ y = -1)) :
    (truncatedQuotient x y).toInt = x.toInt.tdiv y.toInt := by
  rw [truncatedQuotient_eq, if_neg hy]
  exact BitVec.toInt_sdiv_of_ne_or_ne x y (not_and_or.mp h)

theorem truncatedQuotient_neg_one (hw : 0 < w) (x : BitVec w) : truncatedQuotient x (-1) = -x := by
  have hne : (-1 : BitVec w) ≠ 0 := by
    intro h
    have hint := congrArg BitVec.toInt h
    rw [BitVec.ofNat_eq_ofNat, BitVec.neg_one_eq_allOnes, BitVec.toInt_allOnes, if_pos hw,
      BitVec.ofNat_eq_ofNat, BitVec.toInt_zero] at hint
    omega
  rw [truncatedQuotient_eq, if_neg hne, sdiv_neg_one]

/-! ## Division with remainder -/

/-- `a` divided by `b` is `q`, truncated toward zero, and leaves `m`. -/
structure IsDivision (a b q m : ℤ) : Prop where
  law : a = b * q + m
  lt : |m| < |b|
  sign : m = 0 ∨ m.sign = a.sign

theorem isDivision_tdiv (a : ℤ) {b : ℤ} (hb : b ≠ 0) : IsDivision a b (a.tdiv b) (a.tmod b) := by
  refine ⟨(Int.mul_tdiv_add_tmod a b).symm, ?_, ?_⟩
  · rw [Int.abs_eq_natAbs, Int.abs_eq_natAbs, Int.natAbs_tmod]
    exact_mod_cast Nat.mod_lt _ (Int.natAbs_pos.mpr hb)
  · by_cases hdvd : b ∣ a
    · exact .inl (Int.tmod_eq_zero_of_dvd hdvd)
    · exact .inr (by rw [Int.sign_tmod, if_neg hdvd])

/-- Quotient and remainder are unique. -/
theorem IsDivision.unique {a b q m : ℤ} (h : IsDivision a b q m) :
    q = a.tdiv b ∧ m = a.tmod b := by
  obtain ⟨hlaw, hlt, hsign⟩ := h
  have hb : b ≠ 0 := by
    rintro rfl
    exact absurd hlt (by rw [abs_zero]; exact not_lt.mpr (abs_nonneg m))
  rw [Int.abs_eq_natAbs, Int.abs_eq_natAbs] at hlt
  -- The remainder lies on the dividend's side of zero.
  rcases le_total 0 a with ha | ha
  · have hm : 0 ≤ m := by
      rcases hsign with rfl | hsign
      · exact le_rfl
      · exact Int.sign_nonneg_iff.mp (hsign ▸ Int.sign_nonneg_iff.mpr ha)
    have h := (Int.tdiv_tmod_unique ha hb).mpr ⟨(add_comm m _).trans hlaw.symm, hm, by omega⟩
    exact ⟨h.1.symm, h.2.symm⟩
  · have hm : m ≤ 0 := by
      rcases hsign with rfl | hsign
      · exact le_rfl
      · exact Int.sign_nonpos_iff.mp (hsign ▸ Int.sign_nonpos_iff.mpr ha)
    have h := (Int.tdiv_tmod_unique' ha hb).mpr ⟨(add_comm m _).trans hlaw.symm, by omega, hm⟩
    exact ⟨h.1.symm, h.2.symm⟩

/-! ## The remainder composed from words -/

/-- The remainder of a machine that has none. -/
def composedRemainder (x y : BitVec w) : BitVec w := x - y * truncatedQuotient x y

/-- Quotient and product may wrap; modulo the word they cancel to the remainder of the integers. -/
theorem composedRemainder_eq (x y : BitVec w) : composedRemainder x y = x.srem y := by
  unfold composedRemainder truncatedQuotient
  by_cases hy : y = 0
  · rw [if_pos hy, mul_zero, sub_zero, hy]
    exact BitVec.srem_zero.symm
  · rw [if_neg hy]
    calc x - y * BitVec.ofInt w (x.toInt.tdiv y.toInt)
        = BitVec.ofInt w (x.toInt + -(y.toInt * x.toInt.tdiv y.toInt)) := by
          rw [BitVec.ofInt_add, BitVec.ofInt_neg, BitVec.ofInt_mul, BitVec.ofInt_toInt,
            BitVec.ofInt_toInt, sub_eq_add_neg]
      _ = BitVec.ofInt w (x.srem y).toInt := by
          rw [← sub_eq_add_neg, ← Int.tmod_def, BitVec.toInt_srem]
      _ = x.srem y := BitVec.ofInt_toInt

theorem composedRemainder_toInt (x y : BitVec w) :
    (composedRemainder x y).toInt = x.toInt.tmod y.toInt := by
  rw [composedRemainder_eq, BitVec.toInt_srem]

theorem composedRemainder_neg_one (x : BitVec w) : composedRemainder x (-1) = 0 := by
  rcases Nat.eq_zero_or_pos w with rfl | hw
  · exact BitVec.eq_of_zero_length rfl
  · rw [composedRemainder, truncatedQuotient_neg_one hw, neg_one_mul, neg_neg, sub_self]

/-- `m` is what division by `y` leaves of `x`, read as integers; `x` itself for the divisor `0`. -/
structure IsRemainder (x y m : BitVec w) : Prop where
  by_zero : y = 0 → m = x
  division : y ≠ 0 → IsDivision x.toInt y.toInt (x.toInt.tdiv y.toInt) m.toInt
  unique : y ≠ 0 → ∀ q n, IsDivision x.toInt y.toInt q n → n = m.toInt
  by_neg_one : y = -1 → m = 0

theorem composedRemainder_isRemainder (x y : BitVec w) :
    IsRemainder x y (composedRemainder x y) := by
  refine ⟨?_, fun hy => ?_, fun _ q n h => ?_, ?_⟩
  · rintro rfl
    rw [composedRemainder_eq]
    exact BitVec.srem_zero
  · have hint : y.toInt ≠ 0 := fun h => hy (BitVec.eq_of_toInt_eq (by
      rw [h, BitVec.ofNat_eq_ofNat, BitVec.toInt_zero]))
    rw [composedRemainder_toInt]
    exact isDivision_tdiv _ hint
  · rw [composedRemainder_toInt, h.unique.2]
  · rintro rfl
    exact composedRemainder_neg_one x

end JitLang.Numbers
