import BracketTurtle.Number.Exact
import BracketTurtle.Number.Shortest
import BracketTurtle.Proofs.RoundedArithmetic

/-!
# Decimals

A decimal is read as the double nearest to it. Small digits and powers of ten are doubles
themselves, so that one product or one quotient of doubles is enough; all others are multiplied or
divided exactly and rounded once. Exponents that decide alone lead beyond the doubles on either
side.
-/

namespace BracketTurtle
namespace Number

open Float.Model (UnpackedFloat Format totalExponent)
open Float.Model.UnpackedFloat

def Decimal.value (d : Decimal) : ℚ := d.digits * 10 ^ d.exponent

/-! ## Whole numbers and powers of ten -/

theorem intCast_lt_limit {k : ℤ} (hk : |k| < 2 ^ 53) : |(k : ℚ)| < limit := by
  have hk' : |(k : ℚ)| < 2 ^ (53 : ℤ) := by exact_mod_cast hk
  rw [limit_eq]
  apply hk'.trans_le
  apply le_mul_of_one_le_right (by positivity)
  exact one_le_zpow₀ one_le_two (by norm_num)

theorem rounded_intCast {k : ℤ} (hk : |k| < 2 ^ 53) : rounded k = .ofRat k := by
  have hround := rounded_of_lt hk (e := 0) (by norm_num)
  rw [zpow_zero, mul_one] at hround
  rw [hround, Value.bounded_of_lt (intCast_lt_limit hk)]

theorem rounded_natCast {n : ℕ} (h : n < 2 ^ 53) : rounded n = .ofRat n := by
  have habs : |(n : ℤ)| < 2 ^ 53 := by
    rw [abs_of_nonneg (Int.natCast_nonneg n)]
    exact_mod_cast h
  exact rounded_intCast habs

theorem value?_toFloat (n : UInt64) : value? n.toFloat = some (rounded n.toNat) := by
  have hnormalize : n.toFloat = .ofModel (.pack (normalize .binary64 n.toNat 0 .positive)) := rfl
  rw [hnormalize, value?_normalize, zpow_zero, mul_one, Int.cast_natCast]

def isWhole (x : Float) (n : ℕ) : Bool :=
  match exact x with
  | .finite false a => a.scaledUp = n * a.scale
  | _ => false

theorem value?_of_isWhole {x : Float} {n : ℕ} (h : isWhole x n = true) :
    value? x = some (.ofRat n) := by
  rw [isWhole] at h
  split at h
  · rename_i a hx
    have hscale : (a.scale : ℚ) ≠ 0 := by exact_mod_cast a.scale_pos.ne'
    have hup : (a.scaledUp : ℚ) = n * a.scale := by exact_mod_cast of_decide_eq_true h
    have hvalue : a.value = n := mul_right_cancel₀ hscale (a.scaledUp_eq.symm.trans hup)
    rw [value?, hx, Exact.value?, Exact.fraction, hvalue]
  · cases h

theorem isWhole_powerOfTen : ∀ i : Fin Float.exactlyRepresentablePowersOfTen.size,
    isWhole Float.exactlyRepresentablePowersOfTen[i] (10 ^ (i : ℕ)) = true := by
  decide +kernel

theorem value?_powerOfTen {e : ℕ} (h : e < Float.exactlyRepresentablePowersOfTen.size) :
    value? (Float.exactlyRepresentablePowersOfTen[e]) = some (.ofRat (10 ^ e)) := by
  have hvalue := value?_of_isWhole (isWhole_powerOfTen ⟨e, h⟩)
  rwa [Nat.cast_pow, Nat.cast_ofNat] at hvalue

/-! ## Beyond the doubles -/

theorem two_pow_le : (2 : ℚ) ^ (1200 : ℤ) ≤ 10 ^ (400 : ℤ) := by
  have hsplit : (1200 : ℤ) = 3 * 400 := by norm_num
  rw [hsplit, zpow_mul]
  exact zpow_le_zpow_left₀ (by norm_num) (by norm_num) (by norm_num)

theorem limit_le_pow : limit ≤ 10 ^ (400 : ℤ) := by
  rw [limit_eq, ← zpow_add₀ two_ne_zero]
  exact (zpow_le_zpow_right₀ one_le_two (by norm_num)).trans two_pow_le

theorem pow_le_least : (10 : ℚ) ^ (-400 : ℤ) ≤ 2 ^ (-1075 : ℤ) := by
  rw [zpow_neg, zpow_neg]
  apply inv_anti₀ (by positivity)
  exact (zpow_le_zpow_right₀ one_le_two (by norm_num)).trans two_pow_le

/-- A number of `l + 1` binary digits has at most `l / 3 + 1` decimal ones. -/
theorem lt_pow_log2 (n : ℕ) : n < 10 ^ (n.log2 / 3 + 1) := by
  calc n < 2 ^ (n.log2 + 1) := Nat.lt_log2_self
    _ ≤ 2 ^ (3 * (n.log2 / 3 + 1)) := Nat.pow_le_pow_right two_pos (by omega)
    _ = 8 ^ (n.log2 / 3 + 1) := by rw [Nat.pow_mul]
    _ ≤ 10 ^ (n.log2 / 3 + 1) := Nat.pow_le_pow_left (by norm_num) _

theorem rounded_of_large {n : ℕ} (hn : 0 < n) {e : ℤ} (he : 400 ≤ e) :
    rounded ((n : ℚ) * 10 ^ e) = ⊤ := by
  apply rounded_of_limit_le
  have hone : (1 : ℚ) ≤ n := by exact_mod_cast hn
  calc limit ≤ 10 ^ (400 : ℤ) := limit_le_pow
    _ ≤ 10 ^ e := zpow_le_zpow_right₀ (by norm_num) he
    _ ≤ n * 10 ^ e := le_mul_of_one_le_left (by positivity) hone

theorem rounded_of_tiny {n : ℕ} {e : ℤ} (he : e + (n.log2 / 3 : ℕ) < -400) :
    rounded ((n : ℚ) * 10 ^ e) = .ofRat 0 := by
  apply rounded_of_small
  have hn : (n : ℚ) ≤ 10 ^ ((n.log2 / 3 : ℕ) + 1 : ℤ) := by exact_mod_cast (lt_pow_log2 n).le
  rw [abs_of_nonneg (by positivity)]
  calc (n : ℚ) * 10 ^ e ≤ 10 ^ ((n.log2 / 3 : ℕ) + 1 : ℤ) * 10 ^ e := by gcongr
    _ = 10 ^ ((n.log2 / 3 : ℕ) + 1 + e : ℤ) := (zpow_add₀ (by norm_num) _ _).symm
    _ ≤ 10 ^ (-400 : ℤ) := zpow_le_zpow_right₀ (by norm_num) (by omega)
    _ ≤ 2 ^ (-1075 : ℤ) := pow_le_least

/-! ## Reading a decimal -/

theorem value?_scaledUp {m : ℕ} (hm : 0 < m) (hm' : 0 < m <<< 53) {n : ℕ} (hn : 0 < n) :
    value? (.ofModel (.pack (.mul .binary64 (.finite .positive (m <<< 53) (-53) hm')
      (.finite .positive n 0 hn)))) = some (rounded ((m : ℚ) * n)) := by
  have hplace : (-53 : ℤ) + (0 : ℤ) ≤
      lastPlace ((((m <<< 53) * n : ℕ) : ℚ) * 2 ^ ((-53 : ℤ) + (0 : ℤ))) := by
    have hlog : 53 ≤ ((m <<< 53) * n).log2 := by
      rw [Nat.le_log2 (Nat.mul_pos hm' hn).ne', Nat.shiftLeft_eq]
      calc 2 ^ 53 ≤ m * 2 ^ 53 := Nat.le_mul_of_pos_left _ hm
        _ ≤ m * 2 ^ 53 * n := Nat.le_mul_of_pos_right _ hn
    rw [lastPlace_eq (Nat.mul_pos hm' hn)]
    omega
  have hscaled : ((m <<< 53 : ℕ) : ℚ) * 2 ^ (-53 : ℤ) = m := by
    rw [Nat.shiftLeft_eq, zpow_neg]
    push_cast
    field_simp
  rw [value?_mul_finite .positive .positive hm' hn hplace]
  simp only [Sign.apply, Int.cast_natCast, hscaled, zpow_zero, mul_one]

theorem value?_ofScientific_model (m : ℕ) (e : ℤ) :
    value? (.ofModel (Float.Model.ofScientific m e)) = some (rounded ((m : ℚ) * 10 ^ e)) := by
  have hmodel : Float.ofModel (Float.Model.ofScientific m e) =
      .ofModel (.pack (UnpackedFloat.ofScientific .binary64 m e)) := rfl
  rw [hmodel, UnpackedFloat.ofScientific]
  by_cases hm : m = 0
  · rw [dif_pos hm, hm, Nat.cast_zero, zero_mul, rounded_zero]
    exact value?_packZero _
  have hpos : 0 < m := Nat.pos_of_ne_zero hm
  rw [dif_neg hm]
  split_ifs with hlarge hsmall hnonneg
  · have hlarge' : 2048 < e := hlarge
    rw [rounded_of_large hpos (by omega)]
    rfl
  · have hsmall' : e < -(2048 + (m.log2 : ℤ)) := hsmall
    rw [rounded_of_tiny (by omega)]
    exact value?_packZero _
  · have hpow : (10 : ℚ) ^ e = (10 ^ e.toNat : ℕ) := by
      rw [Nat.cast_pow, Nat.cast_ofNat, ← zpow_natCast, Int.toNat_of_nonneg hnonneg]
    rw [hpow]
    exact value?_scaledUp hpos _ _
  · have hpow : (10 : ℚ) ^ e = ((10 ^ (-e).toNat : ℕ) : ℚ)⁻¹ := by
      rw [Nat.cast_pow, Nat.cast_ofNat, ← zpow_natCast, Int.toNat_of_nonneg (by omega), zpow_neg,
        inv_inv]
    rw [value?_div_finite, hpow, ← div_eq_mul_inv, zpow_zero, mul_one, mul_one]
    rfl

/-- The double nearest to `m * 10 ^ e` or `m / 10 ^ e`. -/
theorem value?_ofScientific (m : ℕ) (divides : Bool) (e : ℕ) :
    value? (Float.ofScientific m divides e) =
      some (rounded ((m : ℚ) * 10 ^ (if divides then -(e : ℤ) else e))) := by
  rw [Float.ofScientific]
  by_cases h : m < 2 ^ 53 ∧ e ≤ 22
  · rw [dif_pos h]
    have hm : value? m.toUInt64.toFloat = some (.ofRat m) := by
      have hnat : m.toUInt64.toNat = m := by
        rw [Nat.toUInt64, UInt64.toNat_ofNat']
        omega
      rw [value?_toFloat, hnat, rounded_natCast h.1]
    have hten := value?_powerOfTen (e := e) (by
      simp only [Float.exactlyRepresentablePowersOfTen, List.size_toArray, List.length_cons,
        List.length_nil]
      omega)
    cases divides with
    | true =>
      rw [if_pos rfl, if_pos rfl, zpow_neg, zpow_natCast, ← div_eq_mul_inv]
      exact value?_div hm hten (by positivity)
    | false =>
      rw [if_neg Bool.false_ne_true, if_neg Bool.false_ne_true, zpow_natCast]
      exact value?_mul hm hten
  · rw [dif_neg h]
    cases divides with
    | true =>
      rw [if_pos rfl, if_pos rfl, Int.negOfNat_eq]
      exact value?_ofScientific_model m (-e)
    | false => exact value?_ofScientific_model m e

/-- Reading a decimal gives the double nearest to it. -/
theorem value?_ofDecimal (d : Decimal) :
    value? (ofDecimal false d.digits d.exponent) = some (rounded d.value) := by
  obtain ⟨digits, exponent⟩ := d
  simp only [ofDecimal, Decimal.value]
  rw [if_neg Bool.false_ne_true]
  split_ifs with hsmall hlarge
  · have hzero : value? 0.0 = some (.ofRat 0) := value?_of_isWhole (n := 0) (by decide +kernel)
    rw [hzero]
    rcases hsmall with rfl | hsmall
    · rw [Nat.cast_zero, zero_mul, rounded_zero]
    · rw [rounded_of_tiny hsmall]
  · have hpos : 0 < digits := by omega
    rw [rounded_of_large hpos hlarge.le]
    rfl
  · have hexponent : (if decide (exponent < 0) then -(exponent.natAbs : ℤ) else exponent.natAbs) =
        exponent := by
      by_cases hneg : exponent < 0
      · rw [if_pos (decide_eq_true hneg)]
        omega
      · rw [if_neg (by simpa using hneg)]
        omega
    rw [value?_ofScientific, hexponent]

end Number
end BracketTurtle
