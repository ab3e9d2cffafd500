import BracketTurtle.Proofs.Decimals

/-!
# The shortest decimals

The decimals between the halfway points to the two neighbours of a double round to it, with the
halfway points themselves when its mantissa is even. The decimal with the fewest digits is taken
from them, or is the exact value of the double.
-/

namespace BracketTurtle
namespace Number

/-! ## Comparing with binary fractions -/

theorem zpow_mul_pow_toNat {b : ℚ} (hb : b ≠ 0) (e : ℤ) : b ^ e * b ^ (-e).toNat = b ^ e.toNat := by
  rw [← zpow_natCast, ← zpow_natCast, ← zpow_add₀ hb]
  congr 1
  omega

theorem Decimal.compareBinary_eq (d : Decimal) (n : ℕ) (q : ℤ) :
    d.compareBinary n q = compare d.value ((n : ℚ) * 2 ^ q) := by
  obtain ⟨digits, e⟩ := d
  -- Both sides times the denominators are the whole numbers that are compared.
  have hpos : (0 : ℚ) < 10 ^ (-e).toNat * 2 ^ (-q).toNat := by positivity
  have hscale : StrictMono fun x : ℚ => x * (10 ^ (-e).toNat * 2 ^ (-q).toNat) := by
    intro x y hxy
    exact mul_lt_mul_of_pos_right hxy hpos
  have hleft : ((digits * Nat.pow 10 e.toNat * Nat.pow 2 (-q).toNat : ℕ) : ℚ) =
      (digits : ℚ) * 10 ^ e * (10 ^ (-e).toNat * 2 ^ (-q).toNat) := by
    rw [Nat.pow_eq, Nat.pow_eq]
    push_cast
    rw [← zpow_mul_pow_toNat (by norm_num : (10 : ℚ) ≠ 0) e]
    ring
  have hright : ((n * Nat.pow 2 q.toNat * Nat.pow 10 (-e).toNat : ℕ) : ℚ) =
      (n : ℚ) * 2 ^ q * (10 ^ (-e).toNat * 2 ^ (-q).toNat) := by
    rw [Nat.pow_eq, Nat.pow_eq]
    push_cast
    rw [← zpow_mul_pow_toNat (two_ne_zero : (2 : ℚ) ≠ 0) q]
    ring
  have hcast := compare_map (Nat.strictMono_cast (α := ℚ))
    (digits * Nat.pow 10 e.toNat * Nat.pow 2 (-q).toNat)
    (n * Nat.pow 2 q.toNat * Nat.pow 10 (-e).toNat)
  rw [Decimal.compareBinary, ← hcast, hleft, hright, compare_map hscale, Decimal.value]

/-! ## What rounds to a double -/

namespace Magnitude

def quarter (a : Magnitude) : ℚ := 2 ^ (a.exponent - 2)

theorem quarter_pos (a : Magnitude) : 0 < a.quarter := zpow_pos two_pos _

theorem quarter_mul_four (a : Magnitude) : 4 * a.quarter = 2 ^ a.exponent := by
  rw [quarter, zpow_sub₀ two_ne_zero]
  norm_num
  ring

theorem bounds_of_readsBack {a : Magnitude} {d : Decimal} (h : a.readsBack d = true) :
    a.lowerEnd * a.quarter ≤ d.value ∧ d.value ≤ a.upperEnd * a.quarter ∧
      (a.mantissa % 2 ≠ 0 →
        a.lowerEnd * a.quarter < d.value ∧ d.value < a.upperEnd * a.quarter) := by
  simp only [readsBack, Decimal.compareBinary_eq] at h
  split at h
  · rename_i heven
    obtain ⟨hlow, hhigh⟩ := Bool.and_eq_true_iff.mp h
    exact ⟨compare_ge_iff_ge.mp (Ordering.isGE_iff_ne_lt.mp hlow),
      compare_le_iff_le.mp (Ordering.isLE_iff_ne_gt.mp hhigh), fun hodd => absurd heven hodd⟩
  · obtain ⟨hlow, hhigh⟩ := Bool.and_eq_true_iff.mp h
    have hlow' := compare_gt_iff_gt.mp (Ordering.isGT_iff_eq_gt.mp hlow)
    have hhigh' := compare_lt_iff_lt.mp (Ordering.isLT_iff_eq_lt.mp hhigh)
    exact ⟨hlow'.le, hhigh'.le, fun _ => ⟨hlow', hhigh'⟩⟩

theorem le_lowerEnd (a : Magnitude) : (4 * a.mantissa - 2 : ℚ) ≤ a.lowerEnd := by
  have h : 4 * a.mantissa ≤ a.lowerEnd + 2 := by
    unfold lowerEnd
    split <;> omega
  have hcast : (4 * a.mantissa : ℚ) ≤ a.lowerEnd + 2 := by exact_mod_cast h
  linarith

theorem upperEnd_eq (a : Magnitude) : (a.upperEnd : ℚ) = 4 * a.mantissa + 2 := by
  rw [upperEnd]
  push_cast
  rfl

/-- In units of the last place, what reads back is nearest to the mantissa. -/
theorem isNearest_of_readsBack {a : Magnitude} {d : Decimal} (h : a.readsBack d = true) :
    IsNearest (d.value / 2 ^ a.exponent) a.mantissa := by
  obtain ⟨hlow, hhigh, hstrict⟩ := bounds_of_readsBack h
  have hpos := a.quarter_pos
  have hends : (4 * a.mantissa - 2) * a.quarter ≤ a.lowerEnd * a.quarter :=
    mul_le_mul_of_nonneg_right a.le_lowerEnd hpos.le
  rw [upperEnd_eq] at hhigh hstrict
  rw [← a.quarter_mul_four, IsNearest, Int.cast_natCast]
  have hscaled : d.value / (4 * a.quarter) - a.mantissa =
      (d.value - 4 * a.mantissa * a.quarter) / (4 * a.quarter) := by
    field_simp
  rw [hscaled, abs_div, abs_of_pos (by positivity : 0 < 4 * a.quarter),
    div_lt_iff₀ (by positivity), div_eq_iff (by positivity)]
  by_cases heven : a.mantissa % 2 = 0
  · rcases (abs_le.mpr ⟨by linarith, by linarith⟩ :
      |d.value - 4 * a.mantissa * a.quarter| ≤ 1 / 2 * (4 * a.quarter)).lt_or_eq with hlt | heq
    · exact .inl hlt
    · refine .inr ⟨heq, ?_⟩
      exact_mod_cast Nat.even_iff.mpr heven
  · left
    obtain ⟨hlow', hhigh'⟩ := hstrict heven
    exact abs_lt.mpr ⟨by linarith, by linarith⟩

theorem value_pos_of_readsBack {a : Magnitude} (ha : 0 < a.mantissa) {d : Decimal}
    (h : a.readsBack d = true) : 0 < d.value := by
  obtain ⟨hlow, _, _⟩ := bounds_of_readsBack h
  have hone : (1 : ℚ) ≤ a.mantissa := by exact_mod_cast ha
  have hend := a.le_lowerEnd
  exact (mul_pos (by linarith) a.quarter_pos).trans_le hlow

theorem value_lt_of_readsBack {a : Magnitude} (ha : a.mantissa < 2 ^ 53) {d : Decimal}
    (h : a.readsBack d = true) : d.value < 2 ^ (53 + a.exponent) := by
  obtain ⟨_, hhigh, _⟩ := bounds_of_readsBack h
  have hmantissa : (a.mantissa : ℚ) + 1 ≤ 2 ^ (53 : ℤ) := by exact_mod_cast Nat.succ_le_of_lt ha
  have hpos := a.quarter_pos
  rw [upperEnd_eq] at hhigh
  rw [zpow_add₀ two_ne_zero, ← a.quarter_mul_four]
  nlinarith

/-- Below a full mantissa only the narrow side of a power of two reads back. -/
theorem narrowBelow_of_lt {a : Magnitude} (hc : a.Canonical) {d : Decimal}
    (h : a.readsBack d = true) (he : a.exponent ≠ -1074)
    (hlt : d.value < 2 ^ (52 + a.exponent)) :
    a.mantissa = 2 ^ 52 ∧ (2 ^ 52 - 1 / 4) * 2 ^ a.exponent ≤ d.value := by
  obtain ⟨hlow, _, _⟩ := bounds_of_readsBack h
  have hfull : 2 ^ 52 ≤ a.mantissa := hc.full.resolve_right he
  have hleast := hc.least
  have hpos := a.quarter_pos
  have hpow : (2 : ℚ) ^ (52 + a.exponent) = 2 ^ 52 * (4 * a.quarter) := by
    rw [zpow_add₀ two_ne_zero, a.quarter_mul_four]
    norm_cast
  have hmantissa : a.mantissa = 2 ^ 52 := by
    by_contra hne
    have hgt : (2 : ℚ) ^ 52 + 1 ≤ a.mantissa := by
      exact_mod_cast Nat.succ_le_of_lt (lt_of_le_of_ne hfull (Ne.symm hne))
    have hend := a.le_lowerEnd
    nlinarith
  refine ⟨hmantissa, ?_⟩
  have hnarrow : a.narrowBelow = true := by
    simp only [narrowBelow, hmantissa, Bool.and_eq_true, decide_eq_true_eq]
    exact ⟨rfl, by omega⟩
  have hend : (a.lowerEnd : ℚ) = 4 * 2 ^ 52 - 1 := by
    rw [lowerEnd, if_pos hnarrow, hmantissa]
    norm_num
  rw [hend] at hlow
  rw [← a.quarter_mul_four]
  linarith

theorem rounded_of_readsBack {a : Magnitude} (hc : a.Canonical) {d : Decimal}
    (h : a.readsBack d = true) : rounded d.value = .bounded a.value := by
  have hpos := value_pos_of_readsBack hc.pos h
  have hplace : lastPlace d.value ≤ a.exponent := by
    apply lastPlace_le_of_lt hpos.ne' _ hc.least
    rw [abs_of_pos hpos]
    exact value_lt_of_readsBack hc.lt h
  by_cases hat : lastPlace d.value = a.exponent
  · rw [rounded, hat, roundEven_eq_of_isNearest (isNearest_of_readsBack h), Int.cast_natCast, value]
  · have hlog : Int.log 2 d.value - 52 < a.exponent ∧ a.exponent ≠ -1074 := by
      rw [lastPlace, abs_of_pos hpos] at hplace hat
      omega
    have hlt : d.value < 2 ^ (52 + a.exponent) :=
      (Int.lt_zpow_iff_log_lt one_lt_two hpos).mpr (by omega)
    obtain ⟨hmantissa, hlow⟩ := narrowBelow_of_lt hc h hlog.2 hlt
    have hleast := hc.least
    have hpow : (0 : ℚ) < 2 ^ (a.exponent - 1) := by positivity
    have hhalf : (2 : ℚ) ^ a.exponent = 2 * 2 ^ (a.exponent - 1) := by
      rw [zpow_sub₀ two_ne_zero]
      norm_num
      ring
    -- One binary place more is left, so the mantissa is doubled.
    have hplace' : lastPlace d.value = a.exponent - 1 := by
      have hge : 51 + a.exponent ≤ Int.log 2 d.value := by
        apply (Int.zpow_le_iff_le_log one_lt_two hpos).mp
        refine le_trans ?_ hlow
        rw [Nat.cast_ofNat, zpow_add₀ two_ne_zero]
        gcongr
        norm_num
      rw [lastPlace, abs_of_pos hpos]
      omega
    have hnearest : IsNearest (d.value / 2 ^ (a.exponent - 1)) (2 ^ 53) := by
      have hupper : d.value / 2 ^ (a.exponent - 1) ≤ 2 ^ 53 := by
        rw [div_le_iff₀ hpow]
        refine hlt.le.trans_eq ?_
        rw [zpow_add₀ two_ne_zero, hhalf]
        norm_num
        ring
      have hlower : 2 ^ 53 - 1 / 2 ≤ d.value / 2 ^ (a.exponent - 1) := by
        rw [le_div_iff₀ hpow]
        refine le_trans (le_of_eq ?_) hlow
        rw [hhalf]
        ring
      have hdist : |d.value / 2 ^ (a.exponent - 1) - ((2 ^ 53 : ℤ) : ℚ)| ≤ 1 / 2 := by
        push_cast
        exact abs_le.mpr ⟨by linarith, by linarith⟩
      rcases hdist.lt_or_eq with hlt | heq
      · exact .inl hlt
      · exact .inr ⟨heq, by decide⟩
    rw [rounded, hplace', roundEven_eq_of_isNearest hnearest, value, hmantissa, hhalf]
    congr 1
    push_cast
    ring

/-! ## The decimal that is written -/

theorem exactDecimal_value (a : Magnitude) : a.exactDecimal.value = a.value := by
  unfold exactDecimal
  split
  · rename_i h
    have hpow : (2 : ℚ) ^ a.exponent = 2 ^ a.exponent.toNat := by
      rw [← zpow_natCast, Int.toNat_of_nonneg h]
    simp [Decimal.value, scaledUp, value, hpow]
  · rename_i h
    have hten : (10 : ℚ) ^ a.exponent = 2 ^ a.exponent * 5 ^ a.exponent := by
      rw [← mul_zpow]
      norm_num
    have hfive : (5 : ℚ) ^ a.exponent * 5 ^ (-a.exponent).toNat = 1 := by
      rw [zpow_mul_pow_toNat (by norm_num), Int.toNat_of_nonpos (by omega), pow_zero]
    simp only [Decimal.value, value, hten, Nat.pow_eq]
    push_cast
    linear_combination (a.mantissa * 2 ^ a.exponent : ℚ) * hfive

end Magnitude

theorem Decimal.dropZeros_value (fuel : ℕ) (d : Decimal) : (d.dropZeros fuel).value = d.value := by
  induction fuel generalizing d with
  | zero => rfl
  | succ fuel ih =>
    unfold Decimal.dropZeros
    split
    · rename_i h
      have hdigits : d.digits = d.digits / 10 * 10 := by omega
      rw [ih, Decimal.value, Decimal.value, zpow_add₀ (by norm_num)]
      conv_rhs => rw [hdigits]
      push_cast
      ring
    · rfl

/-- The decimal that is written for a double rounds to it. -/
theorem Magnitude.rounded_shortest {a : Magnitude} (hc : a.Canonical) :
    rounded a.shortest.value = .bounded a.value := by
  rw [Magnitude.shortest, Decimal.dropZeros_value]
  cases hfound : (List.range 17).findSome? fun n : ℕ => a.onGrid? (a.leadingPlace - (n + 1)) with
  | none =>
    rw [Option.getD_none, a.exactDecimal_value]
    exact_mod_cast rounded_of_canonical .positive hc
  | some d =>
    obtain ⟨n, _, hn⟩ := List.exists_of_findSome?_eq_some hfound
    exact rounded_of_readsBack hc (readsBack_of_onGrid? hn)

end Number
end BracketTurtle
