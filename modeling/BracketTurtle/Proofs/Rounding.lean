import BracketTurtle.Proofs.Values

/-!
# Rounding

A sum, a product or a quotient of doubles is taken exactly and then rounded to a multiple of its
last place, the even one of two that are equally near. The last place is that of the 53rd binary
digit, and never below the least one of doubles. Mantissas are quotients of whole numbers and
shifted to it bit by bit; the two bits that are kept of what is lost are enough to tell which
multiple is nearest.
-/

namespace BracketTurtle
namespace Number

open Float.Model (UnpackedFloat Format totalExponent)
open Float.Model.UnpackedFloat

/-! ## The nearest integer -/

/-- The nearest integer; of two, the even one. -/
def IsNearest (q : ℚ) (n : ℤ) : Prop := |q - n| < 1 / 2 ∨ |q - n| = 1 / 2 ∧ Even n

def roundEven (q : ℚ) : ℤ :=
  if Int.fract q < 1 / 2 ∨ Int.fract q = 1 / 2 ∧ Even ⌊q⌋ then ⌊q⌋ else ⌊q⌋ + 1

theorem IsNearest.le {q : ℚ} {n : ℤ} (h : IsNearest q n) : |q - n| ≤ 1 / 2 := by
  rcases h with h | h
  · exact h.le
  · exact h.1.le

theorem IsNearest.unique {q : ℚ} {m n : ℤ} (hm : IsNearest q m) (hn : IsNearest q n) : m = n := by
  have hdist : |((m - n : ℤ) : ℚ)| ≤ 1 := by
    calc |((m - n : ℤ) : ℚ)| = |(q - n) - (q - m)| := by push_cast; ring_nf
      _ ≤ |q - n| + |q - m| := abs_sub _ _
      _ ≤ 1 := by linarith [hm.le, hn.le]
  have hdist : |m - n| ≤ 1 := by exact_mod_cast hdist
  by_contra hne
  -- Different neighbours are one apart, so both are at the distance of a half and even.
  have habs : |m - n| = 1 := le_antisymm hdist (Int.one_le_abs (sub_ne_zero.mpr hne))
  have hone : |((m - n : ℤ) : ℚ)| = 1 := by exact_mod_cast congrArg (Int.cast : ℤ → ℚ) habs
  have hsum : 1 ≤ |q - n| + |q - m| := by
    calc (1 : ℚ) = |(q - n) - (q - m)| := by rw [← hone]; push_cast; ring_nf
      _ ≤ |q - n| + |q - m| := abs_sub _ _
  have hmeven : Even m := by
    rcases hm with h | h
    · linarith [hn.le]
    · exact h.2
  have hneven : Even n := by
    rcases hn with h | h
    · linarith [hm.le]
    · exact h.2
  have heven : Even (m - n) := hmeven.sub hneven
  rcases abs_eq (zero_le_one' ℤ) |>.mp habs with h | h
  · rw [h] at heven
    exact absurd heven (by decide)
  · rw [h] at heven
    exact absurd heven (by decide)

theorem isNearest_roundEven (q : ℚ) : IsNearest q (roundEven q) := by
  have hfloor : q - ⌊q⌋ = Int.fract q := rfl
  have hnonneg := Int.fract_nonneg q
  have hlt := Int.fract_lt_one q
  unfold roundEven
  split_ifs with h
  · rw [IsNearest, hfloor, abs_of_nonneg hnonneg]
    exact h
  · push Not at h
    have hup : q - ((⌊q⌋ + 1 : ℤ) : ℚ) = -(1 - Int.fract q) := by
      push_cast
      rw [← hfloor]
      ring
    rw [IsNearest, hup, abs_neg, abs_of_nonneg (by linarith)]
    rcases h.1.lt_or_eq with hgt | heq
    · left
      linarith
    · right
      refine ⟨by linarith, ?_⟩
      rw [Int.even_add_one]
      exact h.2 heq.symm

theorem roundEven_eq_of_isNearest {q : ℚ} {n : ℤ} (h : IsNearest q n) : roundEven q = n :=
  (isNearest_roundEven q).unique h

@[simp] theorem roundEven_intCast (n : ℤ) : roundEven n = n :=
  roundEven_eq_of_isNearest (.inl (by simp))

theorem le_roundEven {q : ℚ} {n : ℤ} (h : (n : ℚ) ≤ q) : n ≤ roundEven q := by
  have hfloor : n ≤ ⌊q⌋ := Int.le_floor.mpr h
  unfold roundEven
  split_ifs
  · exact hfloor
  · omega

theorem roundEven_mono {p q : ℚ} (h : p ≤ q) : roundEven p ≤ roundEven q := by
  by_contra hlt
  have hnext : (roundEven q : ℚ) + 1 ≤ roundEven p := by exact_mod_cast not_le.mp hlt
  have hp := abs_le.mp (isNearest_roundEven p).le
  have hq := abs_le.mp (isNearest_roundEven q).le
  have heq : p = q := by linarith
  exact hlt (heq ▸ le_rfl)

theorem roundEven_pos_iff {q : ℚ} : 0 < roundEven q ↔ 1 / 2 < q := by
  have hdist := abs_le.mp (isNearest_roundEven q).le
  constructor
  · intro hpos
    have hone : (1 : ℚ) ≤ roundEven q := by exact_mod_cast hpos
    refine lt_of_le_of_ne (by linarith) ?_
    -- A half goes to zero, which is even.
    rintro rfl
    have hzero : roundEven (1 / 2) = 0 :=
      roundEven_eq_of_isNearest (.inr ⟨by norm_num, Even.zero⟩)
    rw [hzero] at hpos
    exact lt_irrefl 0 hpos
  · intro hq
    have hpos : (0 : ℚ) < roundEven q := by linarith
    exact_mod_cast hpos

theorem roundEven_neg (q : ℚ) : roundEven (-q) = -roundEven q := by
  apply roundEven_eq_of_isNearest
  have h := isNearest_roundEven q
  have hneg : -q - ((-roundEven q : ℤ) : ℚ) = -(q - roundEven q) := by
    push_cast
    ring
  rw [IsNearest, hneg, abs_neg, even_neg]
  exact h

theorem roundDiv_eq (num den : ℕ) :
    roundDiv num den = num / den ∨ roundDiv num den = num / den + 1 := by
  simp only [roundDiv]
  split
  · exact .inl rfl
  · exact .inr rfl
  · split
    · exact .inl rfl
    · exact .inr rfl

theorem roundEven_div (num : ℕ) {den : ℕ} (h : 0 < den) :
    roundEven (num / den : ℚ) = roundDiv num den := by
  obtain ⟨hup, hdown⟩ := roundDiv_near num den h
  have hden : (0 : ℚ) < den := by exact_mod_cast h
  have hup' : 2 * ((roundDiv num den : ℚ) * den) ≤ 2 * num + den := by exact_mod_cast hup
  have hdown' : (2 : ℚ) * num ≤ 2 * ((roundDiv num den : ℚ) * den) + den := by exact_mod_cast hdown
  have hdist : |(num / den : ℚ) - ((roundDiv num den : ℤ) : ℚ)| ≤ 1 / 2 := by
    have heq : (num / den : ℚ) - ((roundDiv num den : ℤ) : ℚ) =
        (num - roundDiv num den * den) / den := by
      push_cast
      field_simp
    rw [heq, abs_div, abs_of_pos hden, div_le_iff₀ hden, abs_le]
    constructor
    · linarith
    · linarith
  apply roundEven_eq_of_isNearest
  rcases hdist.lt_or_eq with hlt | heq
  · exact .inl hlt
  · refine .inr ⟨heq, ?_⟩
    have hhalf : 2 * (num % den) = den := by
      have hsplit : den * (num / den) + num % den = num := Nat.div_add_mod num den
      have hrem : num % den < den := Nat.mod_lt _ h
      have hr : roundDiv num den * den = den * (num / den) ∨
          roundDiv num den * den = den * (num / den) + den := by
        rcases roundDiv_eq num den with hr | hr
        · left
          rw [hr, Nat.mul_comm]
        · right
          rw [hr, Nat.add_mul, Nat.one_mul, Nat.mul_comm]
      have htie : 2 * num = 2 * (roundDiv num den * den) + den ∨
          2 * num + den = 2 * (roundDiv num den * den) := by
        have hprod : (num / den : ℚ) * den = num := div_mul_cancel₀ _ hden.ne'
        rcases abs_eq (by norm_num) |>.mp heq with hpos | hneg
        · left
          have hq : (2 * num : ℚ) = 2 * (roundDiv num den * den) + den := by
            push_cast at hpos
            linear_combination 2 * den * hpos - 2 * hprod
          exact_mod_cast hq
        · right
          have hq : (2 * num : ℚ) + den = 2 * (roundDiv num den * den) := by
            push_cast at hneg
            linear_combination 2 * den * hneg - 2 * hprod
          exact_mod_cast hq
      omega
    have heven := roundDiv_even_of_half hhalf
    exact_mod_cast Nat.even_iff.mpr heven

/-! ## Shifting a mantissa -/

/-- A quotient as a mantissa: its whole part, with two bits for what is left of it. -/
def quotientMantissa (n d : ℕ) : ExtendedMantissa :=
  .ofMantissaAndAccuracy (n / d) (accuracyOfFraction (n % d) d)

theorem accuracyOfFraction_one (n : ℕ) : accuracyOfFraction (n % 1) 1 = .exact := by
  rw [Nat.mod_one]
  rfl

theorem quotientMantissa_one (n : ℕ) :
    quotientMantissa n 1 = .ofMantissaAndAccuracy n .exact := by
  rw [quotientMantissa, accuracyOfFraction_one, Nat.div_one]

/-- The first bit tells if at least a half is left, the other if something else is. -/
theorem quotientMantissa_eq (n : ℕ) {d : ℕ} (hd : 0 < d) :
    quotientMantissa n d =
      ⟨n / d, decide (d ≤ 2 * (n % d)), decide (n % d ≠ 0 ∧ 2 * (n % d) ≠ d)⟩ := by
  rw [quotientMantissa, accuracyOfFraction]
  by_cases hzero : n % d = 0
  · simp [hzero, ExtendedMantissa.ofMantissaAndAccuracy, hd.ne']
  · rw [if_neg hzero]
    rcases lt_trichotomy (2 * (n % d)) d with h | h | h
    · rw [Nat.compare_eq_lt.mpr h]
      simp [ExtendedMantissa.ofMantissaAndAccuracy, hzero, h.ne, not_le.mpr h]
    · rw [Nat.compare_eq_eq.mpr h]
      simp [ExtendedMantissa.ofMantissaAndAccuracy, h]
    · rw [Nat.compare_eq_gt.mpr h]
      simp [ExtendedMantissa.ofMantissaAndAccuracy, hzero, h.ne', h.le]

theorem quotientMantissa_shiftRight (n : ℕ) {d : ℕ} (hd : 0 < d) (k : ℕ) :
    quotientMantissa n d >>> k = quotientMantissa n (d * 2 ^ k) := by
  induction k with
  | zero => simp [HShiftRight.hShiftRight, Nat.repeat]
  | succ k ih =>
    have hstep : quotientMantissa n d >>> (k + 1) = (quotientMantissa n d >>> k).shiftRightOne :=
      rfl
    have hpos : 0 < d * 2 ^ k := Nat.mul_pos hd (Nat.two_pow_pos k)
    have hpow : d * 2 ^ (k + 1) = d * 2 ^ k * 2 := by rw [Nat.pow_succ, Nat.mul_assoc]
    rw [hstep, ih, hpow, quotientMantissa_eq n hpos,
      quotientMantissa_eq n (Nat.mul_pos hpos two_pos)]
    generalize d * 2 ^ k = p at hpos
    have hrem : n % (p * 2) = n % p + p * (n / p % 2) := Nat.mod_mul
    have hlt : n % p < p := Nat.mod_lt _ hpos
    have hbit : n / p % 2 = 0 ∨ n / p % 2 = 1 := Nat.mod_two_eq_zero_or_one _
    rw [ExtendedMantissa.shiftRightOne, Nat.div_div_eq_div_mul, hrem]
    generalize n % p = r at *
    rcases hbit with hbit | hbit
    · have hround : ¬p * 2 ≤ 2 * (r + p * 0) := by omega
      have hsticky :
          p ≤ 2 * r ∨ r ≠ 0 ∧ 2 * r ≠ p ↔ r + p * 0 ≠ 0 ∧ 2 * (r + p * 0) ≠ p * 2 := by omega
      simp only [hbit, hround, ← hsticky, Bool.decide_or, bne_self_eq_false, decide_false]
    · have hround : p * 2 ≤ 2 * (r + p * 1) := by omega
      have hsticky :
          p ≤ 2 * r ∨ r ≠ 0 ∧ 2 * r ≠ p ↔ r + p * 1 ≠ 0 ∧ 2 * (r + p * 1) ≠ p * 2 := by omega
      have hone : (1 != 0) = true := rfl
      simp only [hbit, hround, ← hsticky, Bool.decide_or, hone, decide_true]

theorem roundedMantissa_quotientMantissa (n : ℕ) {d : ℕ} (hd : 0 < d) :
    (quotientMantissa n d).roundedMantissa = roundDiv n d := by
  rw [quotientMantissa_eq n hd, ExtendedMantissa.roundedMantissa, roundDiv]
  rcases lt_trichotomy (2 * (n % d)) d with h | h | h
  · rw [Nat.compare_eq_lt.mpr h]
    have hround : ¬d ≤ 2 * (n % d) := by omega
    by_cases hzero : n % d = 0
    · simp [ExtendedMantissa.accuracy, Accuracy.roundToNearestEven, hzero, hd.ne']
    · simp [ExtendedMantissa.accuracy, Accuracy.roundToNearestEven, hzero, hround, h.ne]
  · rw [Nat.compare_eq_eq.mpr h]
    simp only [h, le_refl, ne_eq, not_true_eq_false, and_false, decide_true, decide_false,
      ExtendedMantissa.accuracy, Accuracy.roundToNearestEven]
    split_ifs with hbit
    · rw [hbit]
      rfl
    · rw [Nat.mod_two_ne_zero.mp hbit]
  · rw [Nat.compare_eq_gt.mpr h]
    have hround : d ≤ 2 * (n % d) := h.le
    have hzero : n % d ≠ 0 := by omega
    simp [ExtendedMantissa.accuracy, Accuracy.roundToNearestEven, hzero, hround, h.ne']

/-! ## The last place -/

/-- The exponent of the last place that doubles of this size have. -/
def lastPlace (q : ℚ) : ℤ := max (Int.log 2 |q| - 52) (-1074)

theorem log_mul_zpow {q : ℚ} (hq : 0 < q) (e : ℤ) : Int.log 2 (q * 2 ^ e) = Int.log 2 q + e := by
  have hpos : 0 < q * 2 ^ e := by positivity
  apply le_antisymm
  · apply Int.lt_add_one_iff.mp
    apply (Int.lt_zpow_iff_log_lt one_lt_two hpos).mp
    calc q * 2 ^ e < 2 ^ (Int.log 2 q + 1) * 2 ^ e := by
          gcongr
          exact Int.lt_zpow_succ_log_self one_lt_two q
      _ = 2 ^ (Int.log 2 q + e + 1) := by
        rw [← zpow_add₀ two_ne_zero]
        ring_nf
  · apply (Int.zpow_le_iff_le_log one_lt_two hpos).mp
    calc (2 : ℚ) ^ (Int.log 2 q + e) = 2 ^ Int.log 2 q * 2 ^ e := zpow_add₀ two_ne_zero _ _
      _ ≤ q * 2 ^ e := by
        gcongr
        exact Int.zpow_log_le_self one_lt_two hq

theorem lastPlace_mul_zpow {q : ℚ} (hq : 0 < q) (e : ℤ) :
    lastPlace (q * 2 ^ e) = max (Int.log 2 q + e - 52) (-1074) := by
  have hpos : 0 < q * 2 ^ e := by positivity
  rw [lastPlace, abs_of_pos hpos, log_mul_zpow hq]

theorem log_quotient {n d : ℕ} (hd : 0 < d) (h : d ≤ n) :
    Int.log 2 (n / d : ℚ) = (n / d).log2 := by
  have hone : (1 : ℚ) ≤ n / d := by
    rw [one_le_div (by exact_mod_cast hd)]
    exact_mod_cast h
  rw [Int.log_of_one_le_right 2 hone, Nat.floor_div_eq_div, Nat.log2_eq_log_two]

theorem lastPlace_eq {m : ℕ} (hm : 0 < m) (e : ℤ) :
    lastPlace ((m : ℚ) * 2 ^ e) = max (m.log2 + e - 52) (-1074) := by
  have hlog := log_quotient one_pos hm
  rw [Nat.cast_one, div_one, Nat.div_one] at hlog
  rw [lastPlace_mul_zpow (by exact_mod_cast hm), hlog]

theorem targetExponent_log (m : ℕ) (e : ℤ) :
    Format.binary64.targetExponent (totalExponent m e) = max (m.log2 + e - 52) (-1074) := by
  simp only [Format.targetExponent, totalExponent, Format.mantissaBits, Format.minExponent]
  norm_num
  omega

theorem targetExponent_eq {m : ℕ} (hm : 0 < m) (e : ℤ) :
    Format.binary64.targetExponent (totalExponent m e) = lastPlace ((m : ℚ) * 2 ^ e) := by
  rw [targetExponent_log, lastPlace_eq hm]

/-- The whole part of a quotient tells its last place, as long as this is not below the exponent. -/
theorem targetExponent_quotient {n d : ℕ} (hn : 0 < n) (hd : 0 < d) {e : ℤ}
    (he : e ≤ lastPlace ((n / d : ℚ) * 2 ^ e)) :
    Format.binary64.targetExponent (totalExponent (n / d) e) = lastPlace ((n / d : ℚ) * 2 ^ e) := by
  have hquot : (0 : ℚ) < n / d := by
    have hn' : (0 : ℚ) < n := by exact_mod_cast hn
    have hd' : (0 : ℚ) < d := by exact_mod_cast hd
    positivity
  rw [targetExponent_log]
  rw [lastPlace_mul_zpow hquot] at he ⊢
  by_cases h : d ≤ n
  · rw [log_quotient hd h]
  · -- Without a whole part the quotient is below one, so both places are the least one.
    have hsmall : Int.log 2 (n / d : ℚ) < 0 := by
      apply (Int.lt_zpow_iff_log_lt one_lt_two hquot).mp
      rw [Nat.cast_ofNat, zpow_zero, div_lt_one (by exact_mod_cast hd)]
      exact_mod_cast not_le.mp h
    rw [Nat.div_eq_of_lt (not_le.mp h), Nat.log2_zero]
    omega

/-! ## Rounding a size -/

theorem shiftToTargetExponent_eq {n d : ℕ} (hd : 0 < d) {e t : ℤ} {k : ℕ}
    (ht : Format.binary64.targetExponent (totalExponent (n / d) e) = t) (hk : (t - e).toNat = k) :
    shiftToTargetExponent .binary64 (n / d) e (accuracyOfFraction (n % d) d) =
      (quotientMantissa n (d * 2 ^ k), e + k) := by
  rw [← quotientMantissa_shiftRight n hd, shiftToTargetExponent, ht, shiftToExponent, hk]
  rfl

theorem shiftToTargetExponent_exact {m : ℕ} {e t : ℤ} {k : ℕ}
    (ht : Format.binary64.targetExponent (totalExponent m e) = t) (hk : (t - e).toNat = k) :
    shiftToTargetExponent .binary64 m e .exact = (quotientMantissa m (2 ^ k), e + k) := by
  have h := shiftToTargetExponent_eq (n := m) (d := 1) (e := e) one_pos (by rwa [Nat.div_one]) hk
  rwa [Nat.div_one, accuracyOfFraction_one, Nat.one_mul] at h

theorem shiftToTargetExponent_of_lt {n : ℕ} {t : ℤ} (hn : n < 2 ^ 53) (ht : -1074 ≤ t) :
    shiftToTargetExponent .binary64 n t .exact = (⟨n, false, false⟩, t) := by
  have hlog : n.log2 ≤ 52 := by
    by_cases hzero : n = 0
    · simp [hzero]
    · have := (Nat.log2_lt hzero).mpr hn
      omega
  have htarget := targetExponent_log n t
  have hshift : (Format.binary64.targetExponent (totalExponent n t) - t).toNat = 0 := by omega
  rw [shiftToTargetExponent_exact rfl hshift, Nat.pow_zero, quotientMantissa_one]
  simp [ExtendedMantissa.ofMantissaAndAccuracy]

theorem shiftToTargetExponent_carry {t : ℤ} (ht : -1074 ≤ t) :
    shiftToTargetExponent .binary64 (2 ^ 53) t .exact = (⟨2 ^ 52, false, false⟩, t + 1) := by
  have htarget : Format.binary64.targetExponent (totalExponent (2 ^ 53) t) = t + 1 := by
    rw [targetExponent_log, Nat.log2_two_pow]
    omega
  have hshift : (t + 1 - t).toNat = 1 := by omega
  rw [shiftToTargetExponent_exact htarget hshift, quotientMantissa_eq _ (Nat.two_pow_pos 1)]
  norm_num

theorem roundEven_lastPlace (n : ℕ) {d : ℕ} (hd : 0 < d) {e t : ℤ} (he : e ≤ t) :
    roundEven ((n / d : ℚ) * 2 ^ e / 2 ^ t) = roundDiv n (d * 2 ^ (t - e).toNat) := by
  have hk : ((t - e).toNat : ℤ) = t - e := Int.toNat_of_nonneg (by omega)
  have hquot : (n / d : ℚ) * 2 ^ e / 2 ^ t = n / (d * 2 ^ (t - e).toNat : ℕ) := by
    have hpow : (2 : ℚ) ^ t = 2 ^ e * 2 ^ (t - e).toNat := by
      rw [← zpow_natCast, hk, ← zpow_add₀ two_ne_zero]
      ring_nf
    have hne : (2 : ℚ) ^ e ≠ 0 := by positivity
    rw [hpow, mul_comm (n / d : ℚ), mul_div_mul_left _ _ hne, div_div]
    push_cast
    rfl
  rw [hquot, roundEven_div n (Nat.mul_pos hd (Nat.two_pow_pos _))]

/-- The rounded mantissa has the length of a mantissa, or one bit more; it is short only at the
least exponent. -/
theorem roundDiv_lastPlace {n d : ℕ} (hn : 0 < n) (hd : 0 < d) {e : ℤ}
    (he : e ≤ lastPlace ((n / d : ℚ) * 2 ^ e)) :
    roundDiv n (d * 2 ^ (lastPlace ((n / d : ℚ) * 2 ^ e) - e).toNat) ≤ 2 ^ 53 ∧
      -1074 ≤ lastPlace ((n / d : ℚ) * 2 ^ e) ∧
      (2 ^ 52 ≤ roundDiv n (d * 2 ^ (lastPlace ((n / d : ℚ) * 2 ^ e) - e).toNat) ∨
        lastPlace ((n / d : ℚ) * 2 ^ e) = -1074) := by
  have hquot : (0 : ℚ) < n / d := by
    have hn' : (0 : ℚ) < n := by exact_mod_cast hn
    have hd' : (0 : ℚ) < d := by exact_mod_cast hd
    positivity
  have hplace := lastPlace_mul_zpow hquot e
  generalize lastPlace ((n / d : ℚ) * 2 ^ e) = t at *
  obtain ⟨k, hk⟩ := Int.eq_ofNat_of_zero_le (sub_nonneg.mpr he)
  rw [hk, Int.toNat_natCast]
  have hpos : 0 < d * 2 ^ k := Nat.mul_pos hd (Nat.two_pow_pos k)
  have hcast : (n : ℚ) = (n / d : ℚ) * d := by
    have hd' : (d : ℚ) ≠ 0 := by exact_mod_cast hd.ne'
    rw [div_mul_cancel₀ _ hd']
  have hdpos : (0 : ℚ) < d := by exact_mod_cast hd
  refine ⟨?_, by omega, ?_⟩
  · have hlt : n / (d * 2 ^ k) < 2 ^ 53 := by
      rw [Nat.div_lt_iff_lt_mul hpos]
      have hlog : (n / d : ℚ) < 2 ^ (53 + k : ℤ) :=
        (Int.lt_zpow_iff_log_lt one_lt_two hquot).mpr (by omega)
      have hq : (n : ℚ) < 2 ^ (53 + k : ℤ) * d := by
        rw [hcast]
        gcongr
      rw [zpow_add₀ two_ne_zero, zpow_natCast] at hq
      have hn' : (n : ℚ) < (2 ^ 53 * (d * 2 ^ k) : ℕ) := by
        push_cast
        refine hq.trans_eq ?_
        norm_num
        ring
      exact_mod_cast hn'
    rcases roundDiv_eq n (d * 2 ^ k) with h | h
    · omega
    · omega
  · by_cases hleast : t = -1074
    · exact .inr hleast
    · left
      have hge : 2 ^ 52 ≤ n / (d * 2 ^ k) := by
        rw [Nat.le_div_iff_mul_le hpos]
        have hlog : (2 : ℚ) ^ (52 + k : ℤ) ≤ n / d :=
          (Int.zpow_le_iff_le_log one_lt_two hquot).mpr (by omega)
        have hq : (2 : ℚ) ^ (52 + k : ℤ) * d ≤ n := by
          rw [hcast]
          gcongr
        rw [zpow_add₀ two_ne_zero, zpow_natCast] at hq
        have hn' : ((2 ^ 52 * (d * 2 ^ k) : ℕ) : ℚ) ≤ n := by
          push_cast
          refine le_trans (le_of_eq ?_) hq
          norm_num
          ring
        exact_mod_cast hn'
      rcases roundDiv_eq n (d * 2 ^ k) with h | h
      · omega
      · omega

/-- The two shifts of rounding: to the last place, and after a carry once more. -/
theorem roundWithAccuracy_of_shifts (s : Sign) {m n : ℕ} {e t t' : ℤ} {accuracy : Accuracy}
    {x a : ExtendedMantissa} (hfirst : shiftToTargetExponent .binary64 m e accuracy = (x, t))
    (hn : x.roundedMantissa = n) (hsecond : shiftToTargetExponent .binary64 n t .exact = (a, t')) :
    roundWithAccuracy .binary64 s m e accuracy =
      if h : a.mantissa = 0 then .zero s
      else .finite s a.mantissa t' (Nat.pos_of_ne_zero h) := by
  subst hn
  unfold roundWithAccuracy
  simp only [hfirst, hsecond]

/-- Rounding a quotient: the nearest number of last places, which is zero or canonical. -/
theorem roundWithAccuracy_quotient (s : Sign) {n d : ℕ} (hn : 0 < n) (hd : 0 < d) {e : ℤ}
    (he : e ≤ lastPlace ((n / d : ℚ) * 2 ^ e)) :
    ∃ m : ℕ, (m : ℤ) = roundEven ((n / d : ℚ) * 2 ^ e / 2 ^ lastPlace ((n / d : ℚ) * 2 ^ e)) ∧
      (m = 0 ∧
          roundWithAccuracy .binary64 s (n / d) e (accuracyOfFraction (n % d) d) = .zero s ∨
        ∃ m' e' h,
          roundWithAccuracy .binary64 s (n / d) e (accuracyOfFraction (n % d) d) =
            .finite s m' e' h ∧
          Magnitude.Canonical ⟨m', e'⟩ ∧
          Magnitude.value ⟨m', e'⟩ = m * 2 ^ lastPlace ((n / d : ℚ) * 2 ^ e)) := by
  obtain ⟨hcarry, hleast, hfull⟩ := roundDiv_lastPlace hn hd he
  refine ⟨_, (roundEven_lastPlace n hd he).symm, ?_⟩
  have hfirst := shiftToTargetExponent_eq hd (targetExponent_quotient hn hd he) rfl
  have hk : e + ((lastPlace ((n / d : ℚ) * 2 ^ e) - e).toNat : ℤ) =
      lastPlace ((n / d : ℚ) * 2 ^ e) := by
    rw [Int.toNat_of_nonneg (by omega)]
    omega
  rw [hk] at hfirst
  have hm := roundedMantissa_quotientMantissa n
    (Nat.mul_pos hd (Nat.two_pow_pos (lastPlace ((n / d : ℚ) * 2 ^ e) - e).toNat))
  generalize lastPlace ((n / d : ℚ) * 2 ^ e) = t at *
  generalize roundDiv n (d * 2 ^ (t - e).toNat) = m at *
  rcases hcarry.lt_or_eq with hlt | rfl
  · rw [roundWithAccuracy_of_shifts s hfirst hm (shiftToTargetExponent_of_lt hlt hleast)]
    by_cases hzero : m = 0
    · exact .inl ⟨hzero, dif_pos hzero⟩
    · exact .inr ⟨m, t, Nat.pos_of_ne_zero hzero, dif_neg hzero,
        ⟨Nat.pos_of_ne_zero hzero, hlt, hleast, hfull⟩, rfl⟩
  · rw [roundWithAccuracy_of_shifts s hfirst hm (shiftToTargetExponent_carry hleast)]
    have hleast' : -1074 ≤ t + 1 := by omega
    refine .inr ⟨2 ^ 52, t + 1, Nat.two_pow_pos 52, dif_neg (Nat.two_pow_pos 52).ne',
      ⟨Nat.two_pow_pos 52, by norm_num, hleast', .inl le_rfl⟩, ?_⟩
    rw [Magnitude.value, zpow_add₀ two_ne_zero]
    push_cast
    ring

end Number
end BracketTurtle
