import BracketTurtle.Proofs.Rounding

/-!
# Rounded arithmetic

What is rounded is packed into a double again; beyond the greatest double it becomes infinite. So
the value of a sum or a product of finite doubles is the rounded sum or product of their values, and
it is finite as long as that stays away from the limit by half of the greatest last place.
-/

namespace BracketTurtle
namespace Number

open Float.Model (UnpackedFloat Format totalExponent)
open Float.Model.UnpackedFloat

/-! ## Packing -/

theorem unpackSign_packComponents {spec : Format} {s : Sign} {e m} :
    unpackSign (packComponents spec s e m) = s.toBitVec := by
  ext i hi
  obtain rfl : i = 0 := by omega
  simp [unpackSign, packComponents, BitVec.getLsbD_append, BitVec.getElem_append]

theorem ofBitVec_toBitVec (s : Sign) : Sign.ofBitVec s.toBitVec = s := by
  cases s <;> rfl

/-- The parts of a double with a full mantissa. -/
theorem unpack_normal (s : Sign) {m b : ℕ} (hm : 2 ^ 52 ≤ m) (hm' : m < 2 ^ 53) (hb : 0 < b)
    (hb' : b < 2047) :
    unpack .binary64 (packComponents .binary64 s (.ofNat 11 b) (.ofNat 52 m)) =
      .finite s m (b - 1075) (by omega) := by
  have hexp : (BitVec.ofNat 11 b).toNat = b := by
    rw [BitVec.toNat_ofNat, Nat.mod_eq_of_lt (by omega)]
  have hzero : BitVec.ofNat 11 b ≠ 0#11 := by
    intro h
    have := congrArg BitVec.toNat h
    rw [hexp, BitVec.toNat_zero] at this
    omega
  have hones : BitVec.ofNat 11 b ≠ -1#11 := by
    intro h
    have := congrArg BitVec.toNat h
    rw [hexp] at this
    simp at this
    omega
  have hmantissa : (1#1 ++ BitVec.ofNat 52 m).toNat = m := by
    rw [toNat_one_append, BitVec.toNat_ofNat]
    omega
  simp only [unpack, unpackMantissa_packComponents, unpackExponent_packComponents,
    unpackSign_packComponents, ofBitVec_toBitVec, if_neg hzero, if_neg hones, finite.injEq,
    true_and]
  refine ⟨hmantissa, ?_⟩
  rw [hexp]
  rfl

/-- The parts of a double below the least full one. -/
theorem unpack_subnormal (s : Sign) {m : ℕ} (hm : 0 < m) (hm' : m < 2 ^ 52) :
    unpack .binary64 (packComponents .binary64 s 0#11 (.ofNat 52 m)) =
      .finite s m (-1074) hm := by
  have hmantissa : (BitVec.ofNat 52 m).toNat = m := by
    rw [BitVec.toNat_ofNat, Nat.mod_eq_of_lt hm']
  have hzero : BitVec.ofNat 52 m ≠ 0#52 := by
    intro h
    have := congrArg BitVec.toNat h
    rw [hmantissa, BitVec.toNat_zero] at this
    omega
  have hones : 0#11 ≠ -1#11 := by decide
  simp only [unpack, unpackMantissa_packComponents, unpackExponent_packComponents,
    unpackSign_packComponents, ofBitVec_toBitVec, if_neg hones, if_true, dif_neg hzero,
    finite.injEq, true_and]
  exact ⟨hmantissa, rfl⟩

theorem unpack_packedInfinity (s : Sign) : unpack .binary64 (packedInfinity .binary64 s) =
    .infinity s := by
  cases s <;> rfl

theorem unpack_packedNaN : unpack .binary64 (packedNaN .binary64) = .notANumber := by
  rfl

theorem unpack_packedZero (s : Sign) : unpack .binary64 (packedZero .binary64 s) = .zero s := by
  cases s <;> rfl

/-- The exponent is stored from the least one up, so that zero is left for short mantissas. -/
theorem biasedExponent_eq (e : ℤ) :
    (e + (Format.binary64.exponentBias : ℕ) + ((52 : ℕ) : ℤ)).toNat = (e + 1075).toNat := by
  have hbias : ((Format.binary64.exponentBias : ℕ) : ℤ) = 1023 := rfl
  rw [hbias]
  congr 1
  omega

theorem log2_full {m : ℕ} (hm : 2 ^ 52 ≤ m) (hm' : m < 2 ^ 53) : m.log2 + 1 = 53 := by
  have hlow := (Nat.le_log2 (by omega)).mpr hm
  have hhigh := (Nat.log2_lt (by omega)).mpr hm'
  omega

theorem pack_normal (s : Sign) {m : ℕ} {e : ℤ} (h : 0 < m) (hm : 2 ^ 52 ≤ m) (hm' : m < 2 ^ 53)
    (he : e ≤ 971) :
    pack .binary64 (.finite s m e h) =
      packComponents .binary64 s (.ofNat 11 (e + 1075).toNat) (.ofNat 52 m) := by
  have hexp : ¬2 ^ 11 ≤ (e + 1075).toNat + 1 := by omega
  have hmantissaBits : Format.binary64.mantissaBits = 53 := rfl
  simp only [pack, biasedExponent_eq, hmantissaBits]
  rw [if_neg hexp, if_pos (log2_full hm hm')]

theorem pack_subnormal (s : Sign) {m : ℕ} (h : 0 < m) (hm : m < 2 ^ 52) :
    pack .binary64 (.finite s m (-1074) h) = packComponents .binary64 s 0#11 (.ofNat 52 m) := by
  have hmantissaBits : Format.binary64.mantissaBits = 53 := rfl
  have hlog : ¬m.log2 + 1 = 53 := by
    have := (Nat.log2_lt h.ne').mpr hm
    omega
  simp only [pack, biasedExponent_eq, hmantissaBits]
  rw [if_neg (by omega), if_neg hlog]

theorem pack_large (s : Sign) {m : ℕ} {e : ℤ} (h : 0 < m) (he : 971 < e) :
    pack .binary64 (.finite s m e h) = packedInfinity .binary64 s := by
  have hexp : 2 ^ 11 ≤ (e + 1075).toNat + 1 := by omega
  simp only [pack, biasedExponent_eq]
  rw [if_pos hexp]

/-- Packing keeps what is canonical, up to the greatest exponent of doubles. -/
theorem unpack_pack {s : Sign} {m : ℕ} {e : ℤ} {h : 0 < m} (hc : Magnitude.Canonical ⟨m, e⟩) :
    unpack .binary64 (pack .binary64 (.finite s m e h)) =
      if e ≤ 971 then .finite s m e h else .infinity s := by
  have hleast : -1074 ≤ e := hc.least
  by_cases hfit : e ≤ 971
  · rw [if_pos hfit]
    by_cases hfull : 2 ^ 52 ≤ m
    · rw [pack_normal s h hfull hc.lt hfit, unpack_normal s hfull hc.lt (by omega) (by omega),
        finite.injEq]
      refine ⟨rfl, rfl, ?_⟩
      omega
    · obtain rfl : e = -1074 := hc.full.resolve_left hfull
      rw [pack_subnormal s h (not_le.mp hfull), unpack_subnormal s h (not_le.mp hfull)]
  · rw [if_neg hfit, pack_large s h (not_le.mp hfit), unpack_packedInfinity]

/-! ## Rounded values -/

/-- The least power of two beyond all doubles. -/
def limit : ℚ := 2 ^ (1024 : ℤ)

theorem limit_pos : 0 < limit := zpow_pos two_pos _

theorem limit_eq : limit = 2 ^ (53 : ℤ) * 2 ^ (971 : ℤ) := zpow_add₀ two_ne_zero 53 971

/-- Half of the greatest last place. -/
def halfPlace : ℚ := 2 ^ (970 : ℤ)

theorem one_lt_halfPlace : 1 < halfPlace := one_lt_zpow₀ one_lt_two (by norm_num)

theorem halfPlace_pos : 0 < halfPlace := zero_lt_one.trans one_lt_halfPlace

theorem halfPlace_mul_two : halfPlace * 2 = 2 ^ (971 : ℤ) := (zpow_add_one₀ two_ne_zero 970).symm

-- The powers are too large to be written out, as tactics would do that look into the definitions.
attribute [irreducible] limit halfPlace

/-- What is too large for a double lies beyond all fractions. -/
def Value.bounded (q : ℚ) : Value := if limit ≤ q then ⊤ else if q ≤ -limit then ⊥ else .ofRat q

/-- The value of the nearest double; of two, the one with the even mantissa. -/
def rounded (q : ℚ) : Value := .bounded (roundEven (q / 2 ^ lastPlace q) * 2 ^ lastPlace q)

theorem Value.bounded_of_lt {q : ℚ} (h : |q| < limit) : Value.bounded q = .ofRat q := by
  obtain ⟨hlow, hhigh⟩ := abs_lt.mp h
  rw [Value.bounded, if_neg (not_le.mpr hhigh), if_neg (not_le.mpr hlow)]

theorem Value.bounded_of_ge {q : ℚ} (h : limit ≤ q) :
    Value.bounded q = ⊤ ∧ Value.bounded (-q) = ⊥ := by
  have hneg : ¬limit ≤ -q := by
    have hpos := limit_pos
    linarith
  exact ⟨if_pos h, by rw [Value.bounded, if_neg hneg, if_pos (neg_le_neg h)]⟩

theorem lastPlace_le_of_lt {q : ℚ} (hq : q ≠ 0) {e : ℤ} (h : |q| < 2 ^ (53 + e))
    (he : -1074 ≤ e) : lastPlace q ≤ e := by
  have hlog := (Int.lt_zpow_iff_log_lt one_lt_two (abs_pos.mpr hq)).mp h
  rw [lastPlace]
  omega

theorem lastPlace_le {q : ℚ} (h : |q| < limit) : lastPlace q ≤ 971 := by
  by_cases hzero : q = 0
  · rw [hzero, lastPlace, abs_zero, Int.log_zero_right]
    norm_num
  · rw [limit_eq, ← zpow_add₀ two_ne_zero] at h
    exact lastPlace_le_of_lt hzero h (by norm_num)

theorem rounded_zero : rounded 0 = .ofRat 0 := by
  have hzero : roundEven 0 = 0 := roundEven_intCast 0
  rw [rounded, zero_div, hzero, Int.cast_zero, zero_mul,
    Value.bounded_of_lt (by simpa using limit_pos)]

theorem rounded_of_lt {k e : ℤ} (hk : |k| < 2 ^ 53) (he : -1074 ≤ e) :
    rounded ((k : ℚ) * 2 ^ e) = .bounded (k * 2 ^ e) := by
  by_cases hzero : k = 0
  · rw [hzero, Int.cast_zero, zero_mul, rounded_zero,
      Value.bounded_of_lt (by simpa using limit_pos)]
  have hpow : (0 : ℚ) < 2 ^ e := by positivity
  have hq : (k : ℚ) * 2 ^ e ≠ 0 := mul_ne_zero (by exact_mod_cast hzero) hpow.ne'
  have hlt : |(k : ℚ) * 2 ^ e| < 2 ^ (53 + e) := by
    have hk' : |(k : ℚ)| < 2 ^ (53 : ℤ) := by exact_mod_cast hk
    rw [abs_mul, abs_of_pos hpow, zpow_add₀ two_ne_zero]
    gcongr
  obtain ⟨n, hn⟩ := Int.eq_ofNat_of_zero_le (sub_nonneg.mpr (lastPlace_le_of_lt hq hlt he))
  have hint : (k : ℚ) * 2 ^ e / 2 ^ lastPlace ((k : ℚ) * 2 ^ e) = (k * 2 ^ n : ℤ) := by
    rw [mul_div_assoc, ← zpow_sub₀ two_ne_zero, hn]
    push_cast
    rfl
  have hne : (2 : ℚ) ^ lastPlace ((k : ℚ) * 2 ^ e) ≠ 0 := by positivity
  rw [rounded, hint, roundEven_intCast, ← hint, div_mul_cancel₀ _ hne]

/-- Rounding does not lead below the first binary digit. -/
theorem zpow_log_le_roundEven {q : ℚ} (hq : 0 < q) (hlog : -1022 ≤ Int.log 2 q) :
    (2 : ℚ) ^ Int.log 2 q ≤ roundEven (q / 2 ^ lastPlace q) * 2 ^ lastPlace q := by
  have hplace : lastPlace q = Int.log 2 q - 52 := by
    rw [lastPlace, abs_of_pos hq]
    omega
  have hpow : (0 : ℚ) < 2 ^ lastPlace q := by positivity
  have hsplit : (2 : ℚ) ^ Int.log 2 q = 2 ^ (52 : ℤ) * 2 ^ lastPlace q := by
    rw [← zpow_add₀ two_ne_zero, hplace]
    ring_nf
  have hmantissa : (2 ^ 52 : ℤ) ≤ roundEven (q / 2 ^ lastPlace q) := by
    apply le_roundEven
    rw [le_div_iff₀ hpow]
    calc ((2 ^ 52 : ℤ) : ℚ) * 2 ^ lastPlace q = 2 ^ Int.log 2 q := by
          rw [hsplit]
          push_cast
          rfl
      _ ≤ q := Int.zpow_log_le_self one_lt_two hq
  have hcast : (2 : ℚ) ^ (52 : ℤ) ≤ roundEven (q / 2 ^ lastPlace q) := by exact_mod_cast hmantissa
  rw [hsplit]
  gcongr

theorem rounded_of_limit_le {q : ℚ} (h : limit ≤ q) : rounded q = ⊤ := by
  have hpos : 0 < q := limit_pos.trans_le h
  have hpow : limit = 2 ^ (1024 : ℤ) := by
    rw [limit_eq, ← zpow_add₀ two_ne_zero]
    rfl
  have hlog : 1024 ≤ Int.log 2 q := by
    rw [hpow] at h
    exact (Int.zpow_le_iff_le_log one_lt_two hpos).mp h
  have hlarge : limit ≤ roundEven (q / 2 ^ lastPlace q) * 2 ^ lastPlace q := by
    calc limit = 2 ^ (1024 : ℤ) := hpow
      _ ≤ 2 ^ Int.log 2 q := zpow_le_zpow_right₀ one_le_two hlog
      _ ≤ _ := zpow_log_le_roundEven hpos (by omega)
  exact (Value.bounded_of_ge hlarge).1

theorem rounded_of_small {q : ℚ} (h : |q| ≤ 2 ^ (-1075 : ℤ)) : rounded q = .ofRat 0 := by
  by_cases hzero : q = 0
  · rw [hzero, rounded_zero]
  have hplace : lastPlace q = -1074 := by
    apply le_antisymm _ (le_max_right _ _)
    apply lastPlace_le_of_lt hzero (h.trans_lt _) le_rfl
    exact zpow_lt_zpow_right₀ one_lt_two (by norm_num)
  have hnearest : IsNearest (q / 2 ^ (-1074 : ℤ)) 0 := by
    have hpow : (0 : ℚ) < 2 ^ (-1074 : ℤ) := by positivity
    have hhalf : |q / 2 ^ (-1074 : ℤ) - (0 : ℤ)| ≤ 1 / 2 := by
      rw [Int.cast_zero, sub_zero, abs_div, abs_of_pos hpow, div_le_iff₀ hpow]
      refine h.trans_eq ?_
      rw [show (-1075 : ℤ) = -1 + -1074 by norm_num, zpow_add₀ two_ne_zero]
      norm_num
    rcases hhalf.lt_or_eq with hlt | heq
    · exact .inl hlt
    · exact .inr ⟨heq, Even.zero⟩
  rw [rounded, hplace, roundEven_eq_of_isNearest hnearest, Int.cast_zero, zero_mul,
    Value.bounded_of_lt (by simpa using limit_pos)]

theorem abs_roundEven_mul_sub_le (q : ℚ) (t : ℤ) :
    |(roundEven (q / 2 ^ t) : ℚ) * 2 ^ t - q| ≤ 2 ^ t / 2 := by
  have hpos : (0 : ℚ) < 2 ^ t := by positivity
  have hdist := (isNearest_roundEven (q / 2 ^ t)).le
  rw [abs_sub_comm] at hdist
  calc |(roundEven (q / 2 ^ t) : ℚ) * 2 ^ t - q|
      = |((roundEven (q / 2 ^ t) : ℚ) - q / 2 ^ t) * 2 ^ t| := by
        rw [sub_mul, div_mul_cancel₀ _ hpos.ne']
    _ = |(roundEven (q / 2 ^ t) : ℚ) - q / 2 ^ t| * 2 ^ t := by rw [abs_mul, abs_of_pos hpos]
    _ ≤ 1 / 2 * 2 ^ t := by gcongr
    _ = 2 ^ t / 2 := by ring

/-- What is farther from the limit than half of the greatest last place has a double, which is no
farther from zero than by that half. -/
theorem exists_rounded {q : ℚ} (h : |q| + halfPlace < limit) :
    ∃ r, rounded q = .ofRat r ∧ |r| ≤ |q| + halfPlace := by
  have hlt : |q| < limit := (le_add_of_nonneg_right halfPlace_pos.le).trans_lt h
  have hplace : (2 : ℚ) ^ lastPlace q ≤ halfPlace * 2 :=
    (zpow_le_zpow_right₀ one_le_two (lastPlace_le hlt)).trans_eq halfPlace_mul_two.symm
  have hnear := abs_roundEven_mul_sub_le q (lastPlace q)
  generalize hr : (roundEven (q / 2 ^ lastPlace q) : ℚ) * 2 ^ lastPlace q = r at hnear
  have habs : |r| ≤ |q| + halfPlace := by
    calc |r| = |(r - q) + q| := by rw [sub_add_cancel]
      _ ≤ |r - q| + |q| := abs_add_le _ _
      _ ≤ |q| + halfPlace := by linarith
  refine ⟨r, ?_, habs⟩
  rw [rounded, hr, Value.bounded_of_lt (habs.trans_lt h)]

theorem Magnitude.Canonical.exponent_le_iff {a : Magnitude} (h : a.Canonical) :
    a.exponent ≤ 971 ↔ a.value < limit := by
  constructor
  · intro hle
    have hlt : (a.mantissa : ℚ) < 2 ^ (53 : ℤ) := by exact_mod_cast h.lt
    have hpow : (2 : ℚ) ^ a.exponent ≤ 2 ^ (971 : ℤ) := zpow_le_zpow_right₀ one_le_two hle
    calc a.value < 2 ^ (53 : ℤ) * 2 ^ a.exponent := by
          unfold Magnitude.value
          gcongr
      _ ≤ 2 ^ (53 : ℤ) * 2 ^ (971 : ℤ) := by gcongr
      _ = limit := limit_eq.symm
  · contrapose!
    intro hgt
    have hfull : (2 : ℚ) ^ (52 : ℤ) ≤ a.mantissa := by
      rcases h.full with hfull | hleast
      · exact_mod_cast hfull
      · omega
    have hpow : (2 : ℚ) ^ (972 : ℤ) ≤ 2 ^ a.exponent := zpow_le_zpow_right₀ one_le_two hgt
    calc limit = 2 ^ (52 : ℤ) * 2 ^ (972 : ℤ) := by
          rw [limit_eq, ← zpow_add₀ two_ne_zero, ← zpow_add₀ two_ne_zero]
          rfl
      _ ≤ a.value := by
        unfold Magnitude.value
        gcongr

theorem fraction_finite (s : Sign) (m : ℕ) (e : ℤ) :
    (Exact.finite (isNegative s) ⟨m, e⟩).fraction = (s.apply (m : ℤ) : ℚ) * 2 ^ e := by
  cases s <;> simp [Exact.fraction, isNegative, Magnitude.value, Sign.apply]

theorem abs_apply_mul (s : Sign) (m : ℕ) (e : ℤ) :
    |(s.apply (m : ℤ) : ℚ) * 2 ^ e| = m * 2 ^ e := by
  cases s <;> simp [Sign.apply]

theorem unpack_toModel_pack (u : UnpackedFloat) :
    (Float.ofModel (.pack u)).toModel.unpack = unpack .binary64 (pack .binary64 u) := rfl

/-- What is packed keeps its value, unless it is too large. -/
theorem value?_pack (s : Sign) {m : ℕ} {e : ℤ} (h : 0 < m) (hc : Magnitude.Canonical ⟨m, e⟩) :
    value? (.ofModel (.pack (.finite s m e h))) =
      some (.bounded ((s.apply (m : ℤ) : ℚ) * 2 ^ e)) := by
  have hvalue := hc.exponent_le_iff
  have hunpack := (unpack_toModel_pack _).trans (unpack_pack (s := s) (h := h) hc)
  by_cases hfit : e ≤ 971
  · rw [if_pos hfit] at hunpack
    have habs : |(s.apply (m : ℤ) : ℚ) * 2 ^ e| < limit := by
      rw [abs_apply_mul]
      exact hvalue.mp hfit
    rw [value?_finite hunpack, fraction_finite, Value.bounded_of_lt habs]
  · rw [if_neg hfit] at hunpack
    obtain ⟨htop, hbot⟩ := Value.bounded_of_ge (not_lt.mp (mt hvalue.mpr hfit))
    rw [value?_infinity hunpack, ← fraction_finite]
    cases s with
    | positive => exact congrArg some htop.symm
    | negative => exact congrArg some hbot.symm

theorem value?_packZero (s : Sign) : value? (.ofModel (.pack (.zero s))) = some (.ofRat 0) :=
  value?_zero ((unpack_toModel_pack _).trans (unpack_packedZero s))

def signed (s : Sign) (q : ℚ) : ℚ :=
  match s with
  | .negative => -q
  | .positive => q

theorem apply_eq_signed (s : Sign) (n : ℤ) : ((s.apply n : ℤ) : ℚ) = signed s n := by
  cases s with
  | positive => rfl
  | negative => exact Int.cast_neg n

theorem signed_mul (s : Sign) (p q : ℚ) : signed s (p * q) = signed s p * q := by
  cases s with
  | positive => rfl
  | negative => exact neg_mul_eq_neg_mul p q

theorem rounded_signed (s : Sign) (q : ℚ) :
    rounded (signed s q) =
      .bounded (signed s (roundEven (q / 2 ^ lastPlace q) * 2 ^ lastPlace q)) := by
  cases s with
  | positive => rfl
  | negative =>
    have hplace : lastPlace (-q) = lastPlace q := by rw [lastPlace, lastPlace, abs_neg]
    simp only [signed, rounded]
    rw [hplace, neg_div, roundEven_neg, Int.cast_neg, neg_mul]

theorem apply_mul_congr (s : Sign) {m n : ℕ} {e f : ℤ} (h : (m : ℚ) * 2 ^ e = n * 2 ^ f) :
    (s.apply (m : ℤ) : ℚ) * 2 ^ e = (s.apply (n : ℤ) : ℚ) * 2 ^ f := by
  rw [apply_eq_signed, apply_eq_signed, ← signed_mul, ← signed_mul, Int.cast_natCast,
    Int.cast_natCast, h]

theorem value?_roundQuotient (s : Sign) {n d : ℕ} (hn : 0 < n) (hd : 0 < d) {e : ℤ}
    (he : e ≤ lastPlace ((n / d : ℚ) * 2 ^ e)) :
    value? (.ofModel (.pack
        (roundWithAccuracy .binary64 s (n / d) e (accuracyOfFraction (n % d) d)))) =
      some (rounded (signed s ((n / d : ℚ) * 2 ^ e))) := by
  rw [rounded_signed]
  obtain ⟨m, hm, ⟨rfl, hround⟩ | ⟨m', e', h, hround, hc, hvalue⟩⟩ :=
    roundWithAccuracy_quotient s hn hd he
  · have hzero : signed s 0 = 0 := by cases s <;> simp [signed]
    rw [← hm, hround, value?_packZero, Int.cast_natCast, Nat.cast_zero, zero_mul, hzero,
      Value.bounded_of_lt (by simpa using limit_pos)]
  · rw [← hm, hround, value?_pack s h hc, apply_eq_signed, ← signed_mul, Int.cast_natCast,
      Int.cast_natCast, ← hvalue]
    rfl

/-- Rounding an exact mantissa gives the nearest double. -/
theorem value?_roundWithAccuracy (s : Sign) {m : ℕ} (hm : 0 < m) {e : ℤ}
    (he : e ≤ lastPlace ((m : ℚ) * 2 ^ e)) :
    value? (.ofModel (.pack (roundWithAccuracy .binary64 s m e .exact))) =
      some (rounded ((s.apply (m : ℤ) : ℚ) * 2 ^ e)) := by
  have h := value?_roundQuotient s (d := 1) hm one_pos (e := e) (by rwa [Nat.cast_one, div_one])
  rwa [Nat.div_one, accuracyOfFraction_one, Nat.cast_one, div_one, signed_mul, ← Int.cast_natCast,
    ← apply_eq_signed] at h

theorem decreaseExponent_value (m : ℕ) (e t : ℤ) :
    ((decreaseExponent m e t).1 : ℚ) * 2 ^ (decreaseExponent m e t).2 = m * 2 ^ e := by
  simp only [decreaseExponent, Nat.shiftLeft_eq, Nat.cast_mul, Nat.cast_pow, Nat.cast_ofNat]
  rw [mul_assoc, ← zpow_natCast (2 : ℚ), ← zpow_add₀ two_ne_zero]
  congr 2
  omega

theorem decreaseExponent_pos {m : ℕ} (hm : 0 < m) (e t : ℤ) : 0 < (decreaseExponent m e t).1 := by
  rw [decreaseExponent, Nat.shiftLeft_eq]
  exact Nat.mul_pos hm (Nat.two_pow_pos _)

theorem decreaseExponent_le (m : ℕ) (e t : ℤ) : (decreaseExponent m e t).2 ≤ t := by
  simp only [decreaseExponent]
  omega

theorem value?_round (s : Sign) {m : ℕ} (hm : 0 < m) (e : ℤ) :
    value? (.ofModel (.pack (UnpackedFloat.round .binary64 s m e))) =
      some (rounded ((s.apply (m : ℤ) : ℚ) * 2 ^ e)) := by
  unfold UnpackedFloat.round
  rw [targetExponent_eq hm, ← apply_mul_congr s (decreaseExponent_value m e _)]
  apply value?_roundWithAccuracy s (decreaseExponent_pos hm e _)
  exact (decreaseExponent_le m e _).trans_eq
    (congrArg lastPlace (decreaseExponent_value m e _)).symm

theorem value?_normalize (n e : ℤ) (s : Sign) :
    value? (.ofModel (.pack (UnpackedFloat.normalize .binary64 n e s))) =
      some (rounded (n * 2 ^ e)) := by
  unfold UnpackedFloat.normalize
  rcases lt_trichotomy n 0 with h | rfl | h
  · have hn : Sign.negative.apply ((-n).toNat : ℤ) = n := by
      rw [Sign.apply]
      omega
    rw [compare_lt_iff_lt.mpr h]
    refine (value?_round .negative (by omega) e).trans ?_
    rw [hn]
  · rw [Int.cast_zero, zero_mul, rounded_zero]
    exact value?_packZero s
  · have hn : Sign.positive.apply (n.toNat : ℤ) = n := by
      rw [Sign.apply]
      omega
    rw [compare_gt_iff_gt.mpr h]
    refine (value?_round .positive (by omega) e).trans ?_
    rw [hn]

/-! ## Arithmetic -/

theorem unpack_of_value? {x : Float} {q : ℚ} (h : value? x = some (.ofRat q)) :
    (∃ s, x.toModel.unpack = .zero s ∧ q = 0) ∨
      ∃ s m e hm, x.toModel.unpack = .finite s m e hm ∧ Magnitude.Canonical ⟨m, e⟩ ∧
        q = (s.apply (m : ℤ) : ℚ) * 2 ^ e := by
  cases hx : x.toModel.unpack with
  | notANumber =>
    rw [value?_notANumber hx] at h
    cases h
  | infinity s =>
    rw [value?_infinity hx] at h
    cases s <;> cases h
  | zero s =>
    rw [value?_zero hx, Option.some_inj] at h
    exact .inl ⟨s, rfl, (Value.ofRat_strictMono.injective h).symm⟩
  | finite s m e hm =>
    rw [value?_finite hx, fraction_finite, Option.some_inj] at h
    exact .inr ⟨s, m, e, hm, rfl, canonical_of_unpack hx, (Value.ofRat_strictMono.injective h).symm⟩

theorem toModel_add (x y : Float) :
    (x + y) = .ofModel (.pack (.add .binary64 x.toModel.unpack y.toModel.unpack)) := rfl

theorem toModel_mul (x y : Float) :
    (x * y) = .ofModel (.pack (.mul .binary64 x.toModel.unpack y.toModel.unpack)) := rfl

theorem rounded_of_canonical (s : Sign) {m : ℕ} {e : ℤ} (hc : Magnitude.Canonical ⟨m, e⟩) :
    rounded ((s.apply (m : ℤ) : ℚ) * 2 ^ e) = .bounded ((s.apply (m : ℤ) : ℚ) * 2 ^ e) := by
  have hlt : (m : ℤ) < 2 ^ 53 := by exact_mod_cast hc.lt
  apply rounded_of_lt _ hc.least
  cases s with
  | positive => rwa [Sign.apply, abs_of_nonneg (Int.natCast_nonneg m)]
  | negative => rwa [Sign.apply, abs_neg, abs_of_nonneg (Int.natCast_nonneg m)]

theorem decreaseExponent_apply (s : Sign) (m : ℕ) {e t : ℤ} (h : t ≤ e) :
    (s.apply ((decreaseExponent m e t).1 : ℤ) : ℚ) * 2 ^ t = (s.apply (m : ℤ) : ℚ) * 2 ^ e := by
  have ht : (decreaseExponent m e t).2 = t := by
    simp only [decreaseExponent]
    omega
  rw [← apply_mul_congr s (decreaseExponent_value m e t), ht]

/-- The sum of finite doubles is the double nearest to the sum of their values. -/
theorem value?_add {x y : Float} {p q : ℚ} (hx : value? x = some (.ofRat p))
    (hy : value? y = some (.ofRat q)) : value? (x + y) = some (rounded (p + q)) := by
  rw [toModel_add]
  rcases unpack_of_value? hx with ⟨s, hs, rfl⟩ | ⟨s, m, e, hm, hs, ha, rfl⟩
  · rcases unpack_of_value? hy with ⟨t, ht, rfl⟩ | ⟨t, n, f, hn, ht, hb, rfl⟩
    · rw [hs, ht, zero_add, rounded_zero, UnpackedFloat.add]
      split
      · exact value?_packZero _
      · exact value?_packZero _
    · rw [hs, ht, zero_add, rounded_of_canonical t hb]
      exact value?_pack t hn hb
  · rcases unpack_of_value? hy with ⟨t, ht, rfl⟩ | ⟨t, n, f, hn, ht, hb, rfl⟩
    · rw [hs, ht, add_zero, rounded_of_canonical s ha]
      exact value?_pack s hm ha
    · rw [hs, ht, UnpackedFloat.add, value?_normalize, Int.cast_add, add_mul,
        decreaseExponent_apply s m (min_le_left e f), decreaseExponent_apply t n (min_le_right e f)]

theorem apply_mul_apply (s t : Sign) (m n : ℤ) :
    (s * t).apply (m * n) = s.apply m * t.apply n := by
  cases s with
  | positive =>
    cases t with
    | positive => rfl
    | negative => exact (mul_neg m n).symm
  | negative =>
    cases t with
    | positive => exact (neg_mul m n).symm
    | negative => exact (neg_mul_neg m n).symm

/-- The product is taken exactly, if its last place is not above that of a double, and then rounded.
-/
theorem value?_mul_finite (s t : Sign) {m n : ℕ} (hm : 0 < m) (hn : 0 < n) {e f : ℤ}
    (hplace : e + f ≤ lastPlace (((m * n : ℕ) : ℚ) * 2 ^ (e + f))) :
    value? (.ofModel (.pack (.mul .binary64 (.finite s m e hm) (.finite t n f hn)))) =
      some (rounded (((s.apply (m : ℤ) : ℤ) : ℚ) * 2 ^ e * ((t.apply (n : ℤ) : ℤ) * 2 ^ f))) := by
  rw [UnpackedFloat.mul, value?_roundWithAccuracy (s * t) (Nat.mul_pos hm hn) hplace, Nat.cast_mul,
    apply_mul_apply, Int.cast_mul, zpow_add₀ two_ne_zero, mul_mul_mul_comm]

/-- The product of finite doubles is the double nearest to the product of their values. -/
theorem value?_mul {x y : Float} {p q : ℚ} (hx : value? x = some (.ofRat p))
    (hy : value? y = some (.ofRat q)) : value? (x * y) = some (rounded (p * q)) := by
  rw [toModel_mul]
  rcases unpack_of_value? hx with ⟨s, hs, rfl⟩ | ⟨s, m, e, hm, hs, ha, rfl⟩
  · rw [hs, zero_mul, rounded_zero]
    rcases unpack_of_value? hy with ⟨t, ht, rfl⟩ | ⟨t, n, f, hn, ht, hb, rfl⟩
    · rw [ht]
      exact value?_packZero _
    · rw [ht]
      exact value?_packZero _
  · rcases unpack_of_value? hy with ⟨t, ht, rfl⟩ | ⟨t, n, f, hn, ht, hb, rfl⟩
    · rw [hs, ht, mul_zero, rounded_zero]
      exact value?_packZero _
    · have hprod : 0 < m * n := Nat.mul_pos hm hn
      have hplace : e + f ≤ lastPlace (((m * n : ℕ) : ℚ) * 2 ^ (e + f)) := by
        have hleast : -1074 ≤ e ∧ -1074 ≤ f := ⟨ha.least, hb.least⟩
        rw [lastPlace_eq hprod]
        -- A full factor makes the product as long as a mantissa; two others have small exponents.
        have hfull : 2 ^ 52 ≤ m * n ∨ e = -1074 ∧ f = -1074 := by
          rcases ha.full with hfull | he
          · exact .inl (hfull.trans (Nat.le_mul_of_pos_right m hn))
          · rcases hb.full with hfull | hf
            · exact .inl (hfull.trans (Nat.le_mul_of_pos_left n hm))
            · exact .inr ⟨he, hf⟩
        rcases hfull with hfull | ⟨he, hf⟩
        · have hlog := (Nat.le_log2 hprod.ne').mpr hfull
          omega
        · omega
      rw [hs, ht, value?_mul_finite s t hm hn hplace]

theorem toModel_div (x y : Float) :
    (x / y) = .ofModel (.pack (.div .binary64 x.toModel.unpack y.toModel.unpack)) := rfl

theorem signed_div (s t : Sign) (p q : ℚ) : signed (s / t) (p / q) = signed s p / signed t q := by
  cases s with
  | positive =>
    cases t with
    | positive => rfl
    | negative => exact (div_neg p).symm
  | negative =>
    cases t with
    | positive => exact (neg_div q p).symm
    | negative => exact (neg_div_neg_eq p q).symm

/-- The quotient is computed to more places than a mantissa has, and then rounded. -/
theorem value?_div_finite (s t : Sign) {m n : ℕ} (hm : 0 < m) (hn : 0 < n) (e f : ℤ) :
    value? (.ofModel (.pack (.div .binary64 (.finite s m e hm) (.finite t n f hn)))) =
      some (rounded (signed (s / t) ((m : ℚ) * 2 ^ e / (n * 2 ^ f)))) := by
  have hmq : (0 : ℚ) < m := by exact_mod_cast hm
  have hnq : (0 : ℚ) < n := by exact_mod_cast hn
  have hquot : (0 : ℚ) < m / n := div_pos hmq hnq
  have htarget : Format.binary64.targetExponent (totalExponent m e - totalExponent n f) =
      max (m.log2 - n.log2 + e - f - 53) (-1074) := by
    simp only [Format.targetExponent, totalExponent, Format.mantissaBits, Format.minExponent]
    norm_num
    omega
  have hlog : (m.log2 : ℤ) - n.log2 - 1 ≤ Int.log 2 (m / n : ℚ) := by
    apply (Int.zpow_le_iff_le_log one_lt_two hquot).mp
    have hlow : (2 : ℚ) ^ (m.log2 : ℤ) ≤ m := by exact_mod_cast Nat.log2_self_le hm.ne'
    have hhigh : (n : ℚ) ≤ 2 ^ (n.log2 + 1 : ℤ) := by exact_mod_cast Nat.lt_log2_self.le
    calc (2 : ℚ) ^ ((m.log2 : ℤ) - n.log2 - 1) = 2 ^ (m.log2 : ℤ) / 2 ^ (n.log2 + 1 : ℤ) := by
          rw [← zpow_sub₀ two_ne_zero]
          ring_nf
      _ ≤ m / n := by gcongr
  simp only [UnpackedFloat.div, divCore, htarget]
  generalize hg : min (e - f) (max (m.log2 - n.log2 + e - f - 53) (-1074)) = g
  have hshift : ((e - f - g).toNat : ℤ) = e - f - g := Int.toNat_of_nonneg (by omega)
  have hvalue : ((m <<< (e - f - g).toNat : ℕ) / n : ℚ) * 2 ^ g = (m / n : ℚ) * 2 ^ (e - f) := by
    have hpow : (2 : ℚ) ^ (e - f) = 2 ^ (e - f - g).toNat * 2 ^ g := by
      rw [← zpow_natCast, hshift, ← zpow_add₀ two_ne_zero]
      ring_nf
    rw [Nat.shiftLeft_eq, hpow]
    push_cast
    ring
  have hplace : g ≤ lastPlace (((m <<< (e - f - g).toNat : ℕ) / n : ℚ) * 2 ^ g) := by
    rw [hvalue, lastPlace_mul_zpow hquot]
    omega
  have hpos : 0 < m <<< (e - f - g).toNat := by
    rw [Nat.shiftLeft_eq]
    exact Nat.mul_pos hm (Nat.two_pow_pos _)
  rw [value?_roundQuotient (s / t) hpos hn hplace, hvalue, zpow_sub₀ two_ne_zero, div_mul_div_comm]

/-- The quotient of finite doubles is the double nearest to the quotient of their values. -/
theorem value?_div {x y : Float} {p q : ℚ} (hx : value? x = some (.ofRat p))
    (hy : value? y = some (.ofRat q)) (hq : q ≠ 0) : value? (x / y) = some (rounded (p / q)) := by
  rw [toModel_div]
  rcases unpack_of_value? hy with ⟨t, ht, rfl⟩ | ⟨t, n, f, hn, ht, hb, rfl⟩
  · exact absurd rfl hq
  · rcases unpack_of_value? hx with ⟨s, hs, rfl⟩ | ⟨s, m, e, hm, hs, ha, rfl⟩
    · rw [hs, ht, zero_div, rounded_zero]
      exact value?_packZero _
    · rw [hs, ht, value?_div_finite, signed_div, signed_mul, signed_mul, apply_eq_signed,
        apply_eq_signed, Int.cast_natCast, Int.cast_natCast]

/-! ## What is finite -/

theorem isFinite_iff {x : Float} : x.isFinite = true ↔ ∃ q, value? x = some (.ofRat q) := by
  have hmodel : x.isFinite = x.toModel.unpack.isFinite := rfl
  rw [hmodel]
  cases hx : x.toModel.unpack with
  | notANumber =>
    rw [value?_notANumber hx]
    simp [UnpackedFloat.isFinite]
  | infinity s =>
    rw [value?_infinity hx]
    cases s <;> simp [UnpackedFloat.isFinite, isNegative, Value.ofRat]
  | zero s =>
    rw [value?_zero hx]
    exact ⟨fun _ => ⟨0, rfl⟩, fun _ => rfl⟩
  | finite s m e hm =>
    rw [value?_finite hx]
    exact ⟨fun _ => ⟨_, rfl⟩, fun _ => rfl⟩

theorem isInf_iff {x : Float} : x.isInf = true ↔ ∃ s, x.toModel.unpack = .infinity s := by
  have hmodel : x.isInf = x.toModel.unpack.isInf := rfl
  rw [hmodel]
  cases x.toModel.unpack <;> simp [UnpackedFloat.isInf]

theorem exponent_le_of_unpack {x : Float} {s : Sign} {m : ℕ} {e : ℤ} {hm : 0 < m}
    (h : x.toModel.unpack = .finite s m e hm) : e ≤ 971 := by
  have hbias : ((Format.binary64.exponentBias : ℕ) : ℤ) = 1023 := rfl
  have hbits : ((Format.binary64.mantissaBitsWithoutImplicit : ℕ) : ℤ) = 52 := rfl
  rw [Float.Model.unpack, UnpackedFloat.unpack] at h
  simp only [hbias, hbits] at h
  have hlt : (@unpackExponent .binary64 x.toModel.toBits.toBitVec).toNat < 2 ^ 11 := BitVec.isLt _
  split at h
  · split at h <;> cases h
  · rename_i hones
    have hne : (@unpackExponent .binary64 x.toModel.toBits.toBitVec).toNat ≠ 2047 := by
      intro h
      exact hones (BitVec.eq_of_toNat_eq h)
    split at h
    · rename_i hzero
      have hnone := congrArg BitVec.toNat hzero
      rw [BitVec.toNat_zero] at hnone
      split at h
      · cases h
      · injection h with _ _ hexponent
        omega
    · injection h with _ _ hexponent
      omega

theorem abs_add_le_limit {x : Float} {q : ℚ} (h : value? x = some (.ofRat q)) :
    |q| + halfPlace * 2 ≤ limit := by
  have hpos : (0 : ℚ) < 2 ^ (971 : ℤ) := by positivity
  rw [limit_eq, halfPlace_mul_two]
  rcases unpack_of_value? h with ⟨s, hs, rfl⟩ | ⟨s, m, e, hm, hs, ha, rfl⟩
  · rw [abs_zero, zero_add]
    exact le_mul_of_one_le_left hpos.le (by norm_num)
  · have hpow : (2 : ℚ) ^ e ≤ 2 ^ (971 : ℤ) :=
      zpow_le_zpow_right₀ one_le_two (exponent_le_of_unpack hs)
    have hmantissa : (m : ℚ) + 1 ≤ 2 ^ (53 : ℤ) := by exact_mod_cast Nat.succ_le_of_lt ha.lt
    calc |(s.apply (m : ℤ) : ℚ) * 2 ^ e| + 2 ^ (971 : ℤ)
        ≤ m * 2 ^ (971 : ℤ) + 2 ^ (971 : ℤ) := by
          rw [abs_apply_mul]
          gcongr
      _ = (m + 1) * 2 ^ (971 : ℤ) := by ring
      _ ≤ 2 ^ (53 : ℤ) * 2 ^ (971 : ℤ) := by gcongr

theorem neg_apply (s : Sign) (n : ℤ) : (-s).apply n = -s.apply n := by
  cases s with
  | positive => rfl
  | negative => exact (neg_neg n).symm

theorem value?_neg {x : Float} {q : ℚ} (h : value? x = some (.ofRat q)) :
    value? (-x) = some (.ofRat (-q)) := by
  have hneg : -x = .ofModel (.pack x.toModel.unpack.neg) := rfl
  have hlt : |-q| < limit := by
    have hlimit := abs_add_le_limit h
    have hpos := halfPlace_pos
    rw [abs_neg]
    linarith
  rw [hneg]
  rcases unpack_of_value? h with ⟨s, hs, rfl⟩ | ⟨s, m, e, hm, hs, ha, rfl⟩
  · rw [hs, neg_zero]
    exact value?_packZero _
  · rw [hs, UnpackedFloat.neg, value?_pack (-s) hm ha, neg_apply, Int.cast_neg, neg_mul,
      Value.bounded_of_lt hlt]

theorem toModel_sub (x y : Float) :
    (x - y) = .ofModel (.pack (.sub .binary64 x.toModel.unpack y.toModel.unpack)) := rfl

theorem value?_sub {x y : Float} {p q : ℚ} (hx : value? x = some (.ofRat p))
    (hy : value? y = some (.ofRat q)) : value? (x - y) = some (rounded (p - q)) := by
  rw [toModel_sub]
  rcases unpack_of_value? hx with ⟨s, hs, rfl⟩ | ⟨s, m, e, hm, hs, ha, rfl⟩
  · rcases unpack_of_value? hy with ⟨t, ht, rfl⟩ | ⟨t, n, f, hn, ht, hb, rfl⟩
    · rw [hs, ht, sub_zero, rounded_zero, UnpackedFloat.sub]
      split
      · exact value?_packZero _
      · exact value?_packZero _
    · rw [hs, ht, zero_sub, ← neg_mul, ← Int.cast_neg, ← neg_apply, rounded_of_canonical (-t) hb]
      exact value?_pack (-t) hn hb
  · rcases unpack_of_value? hy with ⟨t, ht, rfl⟩ | ⟨t, n, f, hn, ht, hb, rfl⟩
    · rw [hs, ht, sub_zero, rounded_of_canonical s ha]
      exact value?_pack s hm ha
    · rw [hs, ht, UnpackedFloat.sub, value?_normalize, Int.cast_sub, sub_mul,
        decreaseExponent_apply s m (min_le_left e f), decreaseExponent_apply t n (min_le_right e f)]

theorem isFinite_of_pack {u : UnpackedFloat} (h : (Float.ofModel (.pack u)).isFinite = true) :
    u.isFinite = true := by
  have hmodel : (Float.ofModel (.pack u)).isFinite =
      (unpack .binary64 (pack .binary64 u)).isFinite := rfl
  rw [hmodel] at h
  cases u with
  | notANumber =>
    have hnan : unpack .binary64 (pack .binary64 .notANumber) = .notANumber := unpack_packedNaN
    rw [hnan] at h
    cases h
  | infinity s =>
    have hinfinity : unpack .binary64 (pack .binary64 (.infinity s)) = .infinity s :=
      unpack_packedInfinity s
    rw [hinfinity] at h
    cases h
  | zero s => rfl
  | finite s m e hm => rfl

theorem isFinite_of_sub {x y : Float} (h : (x - y).isFinite = true) :
    x.isFinite = true ∧ y.isFinite = true := by
  have hsub : (UnpackedFloat.sub .binary64 x.toModel.unpack y.toModel.unpack).isFinite = true :=
    isFinite_of_pack h
  have hmodel (z : Float) : z.isFinite = z.toModel.unpack.isFinite := rfl
  rw [hmodel, hmodel]
  cases hx : x.toModel.unpack <;> cases hy : y.toModel.unpack <;> rw [hx, hy] at hsub
  case infinity.infinity s t =>
    rw [UnpackedFloat.sub] at hsub
    split at hsub <;> cases hsub
  all_goals first | exact ⟨rfl, rfl⟩ | cases hsub

theorem isFinite_of_rounded {x : Float} {q : ℚ} (h : value? x = some (rounded q))
    (hq : |q| + halfPlace < limit) : x.isFinite = true := by
  obtain ⟨r, hr, _⟩ := exists_rounded hq
  exact isFinite_iff.mpr ⟨r, hr ▸ h⟩

theorem value?_half : value? 0.5 = some (.ofRat (1 / 2)) := by
  have hexact : exact 0.5 = .finite false ⟨2 ^ 52, -53⟩ := by rfl
  rw [value?, hexact, Exact.value?, Exact.fraction, Magnitude.value]
  norm_num

theorem isFinite_add_half {x : Float} (h : x.isFinite = true) : (x + 0.5).isFinite = true := by
  obtain ⟨q, hq⟩ := isFinite_iff.mp h
  apply isFinite_of_rounded (value?_add hq value?_half)
  have hlimit := abs_add_le_limit hq
  have hlast := one_lt_halfPlace
  have hsum : |q + 1 / 2| ≤ |q| + 1 / 2 := (abs_add_le q (1 / 2)).trans_eq (by norm_num)
  linarith

end Number
end BracketTurtle
