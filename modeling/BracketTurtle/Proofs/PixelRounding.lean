import BracketTurtle.Proofs.Snapping
import BracketTurtle.Proofs.WholeBounds

/-!
# Rounding to pixels

Half up, a number goes to the whole number that is at most a half above it and less than a half
below. The sum with a half is a double again, and rounding it can lead across to the next whole
number. This happens to two kinds of doubles only: the one just below a half, and the odd numbers of
53 binary digits, which have no room for a half. All others become the pixel they should.
-/

namespace BracketTurtle
namespace Number

/-! ## Half up -/

/-- The whole number is at most a half above the number and less than a half below. -/
def IsHalfUp (q : ℚ) (n : ℤ) : Prop := n - 1 / 2 ≤ q ∧ q < n + 1 / 2

theorem isHalfUp_iff {q : ℚ} {n : ℤ} : IsHalfUp q n ↔ n = ⌊q + 1 / 2⌋ := by
  rw [eq_comm, Int.floor_eq_iff, IsHalfUp]
  constructor
  · rintro ⟨hlow, hhigh⟩
    exact ⟨by linarith, by linarith⟩
  · rintro ⟨hlow, hhigh⟩
    exact ⟨by linarith, by linarith⟩

/-- Adding a half overshoots: to a double just below a half, or to an odd number that has no room
for it. -/
def Overshoots (q : ℚ) : Prop :=
  q = 1 / 2 - 2 ^ (-54 : ℤ) ∨ ∃ k : ℤ, Odd k ∧ 2 ^ 52 < |k| ∧ |k| < 2 ^ 53 ∧ q = k

theorem overshoots_intCast {k : ℤ} : Overshoots k ↔ Odd k ∧ 2 ^ 52 < |k| ∧ |k| < 2 ^ 53 := by
  constructor
  · rintro (hbelow | ⟨k', hodd, hlow, hhigh, hk⟩)
    · have hpos : 0 < k := by
        exact_mod_cast (by rw [hbelow]; norm_num : (0 : ℚ) < k)
      have hlt : k < 1 := by
        exact_mod_cast (by rw [hbelow]; norm_num : (k : ℚ) < 1)
      omega
    · obtain rfl : k = k' := by exact_mod_cast hk
      exact ⟨hodd, hlow, hhigh⟩
  · rintro ⟨hodd, hlow, hhigh⟩
    exact .inr ⟨k, hodd, hlow, hhigh, rfl⟩

/-- A double is a whole number of its last places, with a full mantissa unless they are the least.
-/
theorem exists_mantissa {x : Float} {q : ℚ} (hx : value? x = some (.ofRat q)) :
    ∃ k e : ℤ, q = k * 2 ^ e ∧ |k| < 2 ^ 53 ∧ -1074 ≤ e ∧ (2 ^ 52 ≤ |k| ∨ e = -1074) := by
  rcases unpack_of_value? hx with ⟨s, _, rfl⟩ | ⟨s, m, e, hm, _, ha, rfl⟩
  · exact ⟨0, -1074, by simp, by simp, le_rfl, .inr rfl⟩
  · have habs : |s.apply (m : ℤ)| = m := by
      cases s with
      | positive => exact abs_of_nonneg (Int.natCast_nonneg m)
      | negative => exact (abs_neg _).trans (abs_of_nonneg (Int.natCast_nonneg m))
    refine ⟨s.apply m, e, rfl, ?_, ha.least, ?_⟩
    · rw [habs]
      exact_mod_cast ha.lt
    · rw [habs]
      exact ha.full.imp (fun h => by exact_mod_cast h) id

/-! ## The sum with a half -/

/-- The nearest multiple of the last place. -/
def onLastPlace (q : ℚ) : ℚ := roundEven (q / 2 ^ lastPlace q) * 2 ^ lastPlace q

theorem onLastPlace_of_rounded {q r : ℚ} (h : rounded q = .ofRat r) : onLastPlace q = r := by
  have hbounded : Value.bounded (onLastPlace q) = .ofRat r := h
  rw [Value.bounded] at hbounded
  split_ifs at hbounded
  · cases hbounded
  · cases hbounded
  · exact Value.ofRat_strictMono.injective hbounded

theorem onLastPlace_of_isNearest {q : ℚ} {t n : ℤ} (ht : lastPlace q = t)
    (h : IsNearest (q / 2 ^ t) n) : onLastPlace q = n * 2 ^ t := by
  rw [onLastPlace, ht, roundEven_eq_of_isNearest h]

theorem le_lastPlace {q : ℚ} {t : ℤ} (h : 2 ^ (52 + t) ≤ |q|) : t ≤ lastPlace q := by
  have hpos : 0 < |q| := (zpow_pos two_pos _).trans_le h
  have hlog : 52 + t ≤ Int.log 2 |q| := (Int.zpow_le_iff_le_log one_lt_two hpos).mp h
  rw [lastPlace]
  omega

theorem zpow_le_of_lastPlace {q : ℚ} (hq : q ≠ 0) (h : -1074 < lastPlace q) :
    (2 : ℚ) ^ (52 + lastPlace q) ≤ |q| := by
  have hlog : 52 + lastPlace q = Int.log 2 |q| := by
    rw [lastPlace] at h ⊢
    omega
  rw [hlog]
  exact Int.zpow_log_le_self one_lt_two (abs_pos.mpr hq)

theorem lt_zpow_of_lastPlace (q : ℚ) : |q| < 2 ^ (53 + lastPlace q) := by
  have hlog : Int.log 2 |q| + 1 ≤ 53 + lastPlace q := by
    rw [lastPlace]
    omega
  exact (Int.lt_zpow_succ_log_self one_lt_two |q|).trans_le (zpow_le_zpow_right₀ one_le_two hlog)

/-! ### Whole numbers -/

/-- A multiple of the last place stays, unless it is odd and a half is half of its last place. -/
theorem isNearest_add_half {n t : ℤ} (ht : 0 ≤ t) (h : 0 < t ∨ Even n) :
    IsNearest ((n * 2 ^ t + 1 / 2) / 2 ^ t) n := by
  have hpow : (0 : ℚ) < 2 ^ t := zpow_pos two_pos t
  have hdist : |((n * 2 ^ t + 1 / 2) / 2 ^ t - n : ℚ)| = 1 / 2 / 2 ^ t := by
    rw [add_div, mul_div_cancel_right₀ _ hpow.ne', add_sub_cancel_left]
    exact abs_of_pos (by positivity)
  rcases ht.lt_or_eq with hlt | rfl
  · left
    rw [hdist]
    exact div_lt_self one_half_pos (one_lt_zpow₀ one_lt_two hlt)
  · right
    exact ⟨by rw [hdist, zpow_zero, div_one], h.resolve_left (lt_irrefl 0)⟩

section

variable {k e : ℤ} (hk : |k| < 2 ^ 53) (hfull : 2 ^ 52 ≤ |k|) (he : 0 ≤ e)
include hk hfull he

/-- A half more leaves the last place of a whole number as it is, or just passes a power of two. -/
theorem lastPlace_add_half :
    e - 1 ≤ lastPlace (k * 2 ^ e + 1 / 2) ∧ lastPlace (k * 2 ^ e + 1 / 2) ≤ e := by
  have hpow : (1 : ℚ) ≤ 2 ^ e := one_le_zpow₀ one_le_two he
  have hlow : (2 : ℚ) ^ (52 : ℤ) ≤ |(k : ℚ)| := by exact_mod_cast hfull
  have hhigh : |(k : ℚ)| + 1 ≤ 2 ^ (53 : ℤ) := by exact_mod_cast Int.add_one_le_of_lt hk
  have habs : |(k * 2 ^ e : ℚ)| = |(k : ℚ)| * 2 ^ e := by
    rw [abs_mul, abs_of_pos (zpow_pos two_pos e : (0 : ℚ) < 2 ^ e)]
  have hsum : |(k * 2 ^ e + 1 / 2 : ℚ)| ≤ |(k : ℚ)| * 2 ^ e + 1 / 2 := by
    rw [← habs]
    exact (abs_add_le _ _).trans_eq (by norm_num)
  have hdiff : |(k : ℚ)| * 2 ^ e - 1 / 2 ≤ |(k * 2 ^ e + 1 / 2 : ℚ)| := by
    rw [← habs]
    have h := abs_sub_abs_le_abs_sub (k * 2 ^ e : ℚ) (-(1 / 2))
    rw [sub_neg_eq_add, abs_neg] at h
    exact (le_of_eq (by norm_num)).trans h
  have hsize : (2 : ℚ) ^ (52 : ℤ) * 2 ^ e ≤ |(k : ℚ)| * 2 ^ e := by gcongr
  have hsize' : |(k : ℚ)| * 2 ^ e + 2 ^ e ≤ 2 ^ (53 : ℤ) * 2 ^ e := by
    calc |(k : ℚ)| * 2 ^ e + 2 ^ e = (|(k : ℚ)| + 1) * 2 ^ e := by ring
      _ ≤ 2 ^ (53 : ℤ) * 2 ^ e := by gcongr
  constructor
  · apply le_lastPlace
    have hsplit : (2 : ℚ) ^ (52 + (e - 1)) = 2 ^ (52 : ℤ) * 2 ^ e / 2 := by
      rw [zpow_add₀ two_ne_zero, zpow_sub_one₀ two_ne_zero]
      ring
    rw [hsplit]
    linarith
  · have hne : (k * 2 ^ e + 1 / 2 : ℚ) ≠ 0 := by
      rw [← abs_pos]
      linarith
    apply lastPlace_le_of_lt hne _ (by omega)
    rw [zpow_add₀ two_ne_zero]
    linarith

/-- A whole number with more digits than a mantissa absorbs the half. -/
theorem onLastPlace_add_half (hlarge : 0 < e) : onLastPlace (k * 2 ^ e + 1 / 2) = k * 2 ^ e := by
  obtain ⟨hlow, hhigh⟩ := lastPlace_add_half hk hfull he
  generalize ht : lastPlace (k * 2 ^ e + 1 / 2) = t at hlow hhigh
  have hcases : e = t ∨ e = t + 1 := by omega
  rcases hcases with rfl | rfl
  · exact onLastPlace_of_isNearest ht (isNearest_add_half he (.inl hlarge))
  · have hdouble : (k * 2 ^ (t + 1) : ℚ) = (k * 2 : ℤ) * 2 ^ t := by
      rw [zpow_add_one₀ two_ne_zero]
      push_cast
      ring
    rw [hdouble] at ht ⊢
    exact onLastPlace_of_isNearest ht
      (isNearest_add_half (by omega) (.inr (even_two.mul_left k)))

omit he in
theorem floor_onLastPlace_even (heven : Even k) : ⌊onLastPlace (k + 1 / 2)⌋ = k := by
  obtain ⟨hlow, hhigh⟩ := lastPlace_add_half hk hfull le_rfl
  rw [zpow_zero, mul_one] at hlow hhigh
  generalize ht : lastPlace (k + 1 / 2) = t at hlow hhigh
  have hcases : t = 0 ∨ t = -1 := by omega
  rcases hcases with rfl | rfl
  · have hnearest := isNearest_add_half le_rfl (.inr heven)
    rw [zpow_zero, mul_one, ← zpow_zero 2] at hnearest
    rw [onLastPlace_of_isNearest ht hnearest, zpow_zero, mul_one, Int.floor_intCast]
  · have hwhole : IsNearest ((k + 1 / 2 : ℚ) / 2 ^ (-1 : ℤ)) (2 * k + 1) := by
      left
      have hzero : (k + 1 / 2 : ℚ) / 2 ^ (-1 : ℤ) - (2 * k + 1 : ℤ) = 0 := by
        push_cast
        ring
      rw [hzero, abs_zero]
      exact one_half_pos
    rw [onLastPlace_of_isNearest ht hwhole, zpow_neg_one, Int.floor_eq_iff]
    push_cast
    constructor <;> linarith

end

/-- An odd number of 53 binary digits becomes the next one: a half more is halfway to it. -/
theorem onLastPlace_odd {k : ℤ} (hodd : Odd k) (hk : |k| < 2 ^ 53) (hfull : 2 ^ 52 < |k|) :
    onLastPlace (k + 1 / 2) = k + 1 := by
  obtain ⟨_, hhigh⟩ := lastPlace_add_half hk hfull.le le_rfl
  rw [zpow_zero, mul_one] at hhigh
  have hlow : 0 ≤ lastPlace (k + 1 / 2) := by
    apply le_lastPlace
    have hsize : (2 : ℚ) ^ (52 : ℤ) + 1 ≤ |(k : ℚ)| := by exact_mod_cast Int.add_one_le_of_lt hfull
    have h := abs_sub_abs_le_abs_sub (k : ℚ) (-(1 / 2))
    rw [sub_neg_eq_add, abs_neg, abs_of_pos (one_half_pos : (0 : ℚ) < 1 / 2)] at h
    rw [add_zero]
    linarith
  have hnearest : IsNearest ((k + 1 / 2 : ℚ) / 2 ^ (0 : ℤ)) (k + 1) := by
    right
    refine ⟨?_, hodd.add_one⟩
    have hdiff : (k + 1 / 2 : ℚ) / 2 ^ (0 : ℤ) - (k + 1 : ℤ) = -(1 / 2) := by
      push_cast
      ring
    rw [hdiff, abs_neg, abs_of_pos one_half_pos]
  rw [onLastPlace_of_isNearest (le_antisymm hhigh hlow) hnearest]
  push_cast
  ring

/-! ### Fractions -/

/-- The sum is a number of places of the fraction, and so is its distance to the next whole number.
-/
theorem zpow_le_distance (k : ℤ) {e : ℤ} (he : e < 0) :
    (2 : ℚ) ^ e ≤ ⌊(k * 2 ^ e + 1 / 2 : ℚ)⌋ + 1 - (k * 2 ^ e + 1 / 2) := by
  obtain ⟨n, rfl⟩ : ∃ n : ℕ, e = -(n + 1 : ℕ) := ⟨(-e - 1).toNat, by omega⟩
  have hpos : (0 : ℚ) < 2 ^ (-(n + 1 : ℕ) : ℤ) := zpow_pos two_pos _
  have hhalf : (2 : ℚ) ^ n * 2 ^ (-(n + 1 : ℕ) : ℤ) = 1 / 2 := by
    rw [zpow_neg, zpow_natCast, pow_succ]
    field_simp
  have habove := Int.lt_floor_add_one (k * 2 ^ (-(n + 1 : ℕ) : ℤ) + 1 / 2 : ℚ)
  generalize ⌊(k * 2 ^ (-(n + 1 : ℕ) : ℤ) + 1 / 2 : ℚ)⌋ = m at habove ⊢
  generalize (2 : ℚ) ^ (-(n + 1 : ℕ) : ℤ) = u at *
  have hplaces : m + 1 - (k * u + 1 / 2) = ((m + 1) * 2 ^ (n + 1) - k - 2 ^ n : ℤ) * u := by
    push_cast
    linear_combination (-(2 * m + 1) : ℚ) * hhalf
  rw [hplaces]
  apply le_mul_of_one_le_left hpos.le
  have hcount : (0 : ℚ) < ((m + 1) * 2 ^ (n + 1) - k - 2 ^ n : ℤ) := by
    refine pos_of_mul_pos_left ?_ hpos.le
    rw [← hplaces]
    linarith
  exact_mod_cast hcount

theorem abs_mul_zpow_lt {k : ℤ} (hk : |k| < 2 ^ 53) (e : ℤ) : |(k * 2 ^ e : ℚ)| < 2 ^ (53 + e) := by
  have hk' : |(k : ℚ)| < 2 ^ (53 : ℤ) := by exact_mod_cast hk
  have hpos : (0 : ℚ) < 2 ^ e := zpow_pos two_pos e
  rw [abs_mul, abs_of_pos hpos, zpow_add₀ two_ne_zero]
  gcongr

theorem distance_le {r : ℚ} (h : onLastPlace r = ⌊r⌋ + 1) :
    ⌊r⌋ + 1 - r ≤ (2 : ℚ) ^ (lastPlace r - 1) := by
  rw [← h, zpow_sub_one₀ two_ne_zero]
  exact (le_abs_self _).trans (abs_roundEven_mul_sub_le r (lastPlace r))

section

variable {q : ℚ} {e : ℤ} (hsize : |q| < 2 ^ (53 + e)) (hplace : e < lastPlace (q + 1 / 2))
include hsize hplace

/-- If the sum has a higher last place than the fraction, the half made the size grow. -/
theorem zpow_le_add_half (hleast : -1074 ≤ e) (hne : q + 1 / 2 ≠ 0) :
    (2 : ℚ) ^ (52 + lastPlace (q + 1 / 2)) ≤ q + 1 / 2 := by
  have hfull := zpow_le_of_lastPlace hne (by omega)
  have hbelow : |q| < 2 ^ (52 + lastPlace (q + 1 / 2)) :=
    hsize.trans_le (zpow_le_zpow_right₀ one_le_two (by omega))
  have hpos : 0 < q + 1 / 2 := by
    by_contra hneg
    rw [abs_of_nonpos (not_lt.mp hneg)] at hfull
    linarith [neg_abs_le q]
  rwa [abs_of_pos hpos] at hfull

/-- A sum with a whole part of its own power of two is not rounded up to the next whole number. -/
theorem lastPlace_lt_of_onLastPlace (he : e < 0)
    (hfull : (2 : ℚ) ^ (52 + lastPlace (q + 1 / 2)) ≤ q + 1 / 2)
    (h : onLastPlace (q + 1 / 2) = ⌊q + 1 / 2⌋ + 1) : lastPlace (q + 1 / 2) < -52 := by
  have hmoved := distance_le h
  have hpos : 0 < q + 1 / 2 := (zpow_pos two_pos _).trans_le hfull
  have hhigh : lastPlace (q + 1 / 2) ≤ 0 := by
    have hbound : (2 : ℚ) ^ (53 + e) ≤ 2 ^ (52 : ℤ) := zpow_le_zpow_right₀ one_le_two (by omega)
    refine lastPlace_le_of_lt hpos.ne' ?_ (by norm_num)
    rw [abs_of_pos hpos]
    norm_num at hbound ⊢
    linarith [le_abs_self q]
  generalize lastPlace (q + 1 / 2) = t at *
  by_contra hlow
  obtain ⟨n, hn⟩ : ∃ n : ℕ, 52 + t = n := ⟨(52 + t).toNat, by omega⟩
  -- The power of two lies between the fraction and the sum, so it is the whole number below.
  have hbelow : |q| < 2 ^ (52 + t) := hsize.trans_le (zpow_le_zpow_right₀ one_le_two (by omega))
  have hpower : (2 : ℚ) ^ (52 + t) ≤ ⌊q + 1 / 2⌋ := by
    rw [hn] at hfull ⊢
    have hfloor : (2 ^ n : ℤ) ≤ ⌊q + 1 / 2⌋ := Int.le_floor.mpr (by exact_mod_cast hfull)
    exact_mod_cast hfloor
  have hhalf : (2 : ℚ) ^ (t - 1) ≤ 2 ^ (-1 : ℤ) := zpow_le_zpow_right₀ one_le_two (by omega)
  rw [zpow_neg_one] at hhalf
  linarith [le_abs_self q]

end

/-- A fraction that is rounded up to the whole number above it is the number just below a half. -/
theorem eq_of_onLastPlace {k e : ℤ} (hk : |k| < 2 ^ 53) (hleast : -1074 ≤ e) (he : e < 0)
    (h : onLastPlace (k * 2 ^ e + 1 / 2) = ⌊(k * 2 ^ e + 1 / 2 : ℚ)⌋ + 1) :
    (k * 2 ^ e : ℚ) = 1 / 2 - 2 ^ (-54 : ℤ) := by
  have hdist := zpow_le_distance k he
  have hsize := abs_mul_zpow_lt hk e
  generalize (k * 2 ^ e : ℚ) = q at *
  have hmoved := distance_le h
  have hne : q + 1 / 2 ≠ 0 := by
    intro hzero
    have hround : roundEven 0 = 0 := by exact_mod_cast roundEven_intCast 0
    rw [hzero, onLastPlace, zero_div, hround] at h
    norm_num at h
  have hplace : e < lastPlace (q + 1 / 2) := by
    have := (zpow_le_zpow_iff_right₀ one_lt_two).mp (hdist.trans hmoved)
    omega
  have hfull := zpow_le_add_half hsize hplace hleast hne
  have hlow := lastPlace_lt_of_onLastPlace hsize hplace he hfull h
  -- So the sum is below one, by half of its last place at most.
  have hfloor : ⌊q + 1 / 2⌋ = 0 := by
    refine Int.floor_eq_zero_iff.mpr ⟨(zpow_pos two_pos _).le.trans hfull, ?_⟩
    calc q + 1 / 2 ≤ |q + 1 / 2| := le_abs_self _
      _ < 2 ^ (53 + lastPlace (q + 1 / 2)) := lt_zpow_of_lastPlace _
      _ ≤ 1 := zpow_le_one_of_nonpos₀ one_le_two (by omega)
  rw [hfloor, Int.cast_zero, zero_add] at hdist hmoved
  have hclose : 1 - (q + 1 / 2) ≤ (2 : ℚ) ^ (-54 : ℤ) :=
    hmoved.trans (zpow_le_zpow_right₀ one_le_two (by omega))
  have hexponent : e = -54 := by
    by_contra hother
    have hbound : (2 : ℚ) ^ (53 + e) ≤ 2 ^ (-2 : ℤ) := zpow_le_zpow_right₀ one_le_two (by omega)
    norm_num at hbound hclose
    linarith [le_abs_self q]
  rw [hexponent] at hdist
  linarith

/-- From just below a half the sum is halfway between the double below one and one. -/
theorem onLastPlace_belowHalf : onLastPlace (1 / 2 - 2 ^ (-54 : ℤ) + 1 / 2) = 1 := by
  have hsum : (1 / 2 - 2 ^ (-54 : ℤ) + 1 / 2 : ℚ) = 1 - 2 ^ (-54 : ℤ) := by ring
  have hne : (1 - 2 ^ (-54 : ℤ) : ℚ) ≠ 0 := by norm_num
  have hplace : lastPlace (1 - 2 ^ (-54 : ℤ)) = -53 := by
    apply le_antisymm
    · exact lastPlace_le_of_lt hne (by norm_num [abs_lt]) (by norm_num)
    · exact le_lastPlace (by norm_num [le_abs])
  have hnearest : IsNearest ((1 - 2 ^ (-54 : ℤ) : ℚ) / 2 ^ (-53 : ℤ)) (2 ^ 53) := by
    right
    refine ⟨by norm_num [abs_div], ⟨2 ^ 52, by norm_num⟩⟩
  rw [hsum, onLastPlace_of_isNearest hplace hnearest]
  norm_num

/-! ### Doubles -/

theorem floor_add_half (k : ℤ) : ⌊(k + 1 / 2 : ℚ)⌋ = k := by
  rw [Int.floor_eq_iff]
  constructor <;> linarith

theorem floor_onLastPlace_of_overshoots {q : ℚ} (h : Overshoots q) :
    ⌊onLastPlace (q + 1 / 2)⌋ = ⌊q + 1 / 2⌋ + 1 := by
  rcases h with rfl | ⟨k, hodd, hlow, hhigh, rfl⟩
  · have hfloor : ⌊(1 / 2 - 2 ^ (-54 : ℤ) + 1 / 2 : ℚ)⌋ = 0 := by
      rw [Int.floor_eq_zero_iff]
      norm_num
    rw [onLastPlace_belowHalf, hfloor, Int.floor_one, zero_add]
  · rw [onLastPlace_odd hodd hhigh hlow, floor_add_half, Int.floor_add_one, Int.floor_intCast]

theorem floor_onLastPlace_of_fraction {k e : ℤ} (hk : |k| < 2 ^ 53) (hleast : -1074 ≤ e)
    (he : e < 0) (h : ¬Overshoots (k * 2 ^ e)) :
    ⌊onLastPlace (k * 2 ^ e + 1 / 2)⌋ = ⌊(k * 2 ^ e + 1 / 2 : ℚ)⌋ := by
  have hnext : onLastPlace (k * 2 ^ e + 1 / 2) ≠ ⌊(k * 2 ^ e + 1 / 2 : ℚ)⌋ + 1 :=
    fun hnext => h (.inl (eq_of_onLastPlace hk hleast he hnext))
  have hsize : |(k * 2 ^ e : ℚ)| < 2 ^ (52 : ℤ) :=
    (abs_mul_zpow_lt hk e).trans_le (zpow_le_zpow_right₀ one_le_two (by omega))
  generalize (k * 2 ^ e : ℚ) = q at *
  obtain ⟨hlow, hhigh⟩ := abs_lt.mp hsize
  have hfloor := Int.floor_le (q + 1 / 2)
  have habove := Int.lt_floor_add_one (q + 1 / 2)
  generalize ⌊q + 1 / 2⌋ = n at *
  have hn : |n| < 2 ^ 53 ∧ |n + 1| < 2 ^ 53 := by
    have hlow' : -2 ^ 52 - 1 < n := by
      exact_mod_cast (by linarith : (-2 ^ 52 - 1 : ℚ) < n)
    have hhigh' : n < 2 ^ 52 + 1 := by
      exact_mod_cast (by linarith : (n : ℚ) < 2 ^ 52 + 1)
    rw [abs_lt, abs_lt]
    omega
  rw [Int.floor_eq_iff]
  refine ⟨intCast_le_roundEven hn.1 hfloor, lt_of_le_of_ne ?_ hnext⟩
  exact_mod_cast roundEven_le_intCast hn.2 (by exact_mod_cast habove.le)

theorem floor_onLastPlace {x : Float} {q : ℚ} (hx : value? x = some (.ofRat q))
    (h : ¬Overshoots q) : ⌊onLastPlace (q + 1 / 2)⌋ = ⌊q + 1 / 2⌋ := by
  obtain ⟨k, e, rfl, hk, hleast, hfull⟩ := exists_mantissa hx
  rcases lt_or_ge e 0 with hfraction | hwhole
  · exact floor_onLastPlace_of_fraction hk hleast hfraction h
  · replace hfull : 2 ^ 52 ≤ |k| := hfull.resolve_right (by omega)
    rcases hwhole.lt_or_eq with hlarge | rfl
    · obtain ⟨n, rfl⟩ := Int.eq_ofNat_of_zero_le hwhole
      have hcast : (k * 2 ^ (n : ℤ) : ℚ) = (k * 2 ^ n : ℤ) := by push_cast; rfl
      rw [onLastPlace_add_half hk hfull hwhole hlarge, hcast, floor_add_half, Int.floor_intCast]
    · rw [zpow_zero, mul_one] at h ⊢
      rw [floor_add_half]
      rcases Int.even_or_odd k with heven | hodd
      · exact floor_onLastPlace_even hk hfull heven
      · -- The least mantissa is even, so this one is greater.
        have hne : 2 ^ 52 ≠ |k| := by
          intro heq
          have hodd' : Odd |k| := odd_abs.mpr hodd
          rw [← heq] at hodd'
          exact absurd hodd' (by decide)
        exact absurd (.inr ⟨k, hodd, lt_of_le_of_ne hfull hne, hk, rfl⟩) h

end Number

/-! ## Pixels -/

open Number

variable {v : Float} {q : ℚ}

theorem roundHalfUp_eq (cos sin : Float → Float) (hv : value? v = some (.ofRat q)) :
    roundHalfUp (.rounded cos sin) v = .ok ⌊onLastPlace (q + 1 / 2)⌋ := by
  obtain ⟨r, hr⟩ := isFinite_iff.mp (isFinite_add_half (isFinite_iff.mpr ⟨q, hv⟩))
  have hrounded := (value?_add hv value?_half).symm.trans hr
  rw [roundHalfUp_eq_floor cos sin hr, onLastPlace_of_rounded (Option.some.inj hrounded)]

theorem roundHalfUp_cases (cos sin : Float → Float) (hv : value? v = some (.ofRat q)) :
    ∃ n, roundHalfUp (.rounded cos sin) v = .ok n ∧ (¬Overshoots q → IsHalfUp q n) ∧
      (Overshoots q → IsHalfUp q (n - 1)) := by
  refine ⟨_, roundHalfUp_eq cos sin hv, fun h => ?_, fun h => ?_⟩
  · rw [isHalfUp_iff, floor_onLastPlace hv h]
  · rw [isHalfUp_iff, floor_onLastPlace_of_overshoots h, add_sub_cancel_right]

/-- How far pixels are rounded half up. Every finite double has a pixel, and this is the one whole
number that is rounded to half up unless the half overshoots; then it is the next one. A whole
number is its own pixel unless it is odd and has 53 binary digits. The coordinates of a pen's pixel
and those of the points it draws on the grid are such pixels of its own. -/
theorem pixel_isHalfUp_iff (cos sin : Float → Float) (step turn : Float) :
    let A := Arithmetic.rounded cos sin
    (∀ (v : Float) (q : ℚ), value? v = some (.ofRat q) →
      (∃! m, IsHalfUp q m) ∧
      ∃ n, roundHalfUp A v = .ok n ∧ (IsHalfUp q n ↔ ¬Overshoots q) ∧
        (Overshoots q → IsHalfUp q (n - 1)) ∧
        ∀ k : ℤ, q = k → (n = k ↔ ¬(Odd k ∧ 2 ^ 52 < |k| ∧ |k| < 2 ^ 53))) ∧
    ∀ p : Pen, p.isFinite = true →
      ∃ m n, roundHalfUp A p.x = .ok m ∧ roundHalfUp A p.y = .ok n ∧ p.pixel A = .ok (m, n) ∧
        (Course.gridded step turn).point A p = .ok ⟨.pixel m, .pixel n⟩ := by
  intro A
  refine ⟨fun v q hv => ?_, fun p hfinite => ?_⟩
  · obtain ⟨n, hn, hhalfUp, hnext⟩ := roundHalfUp_cases cos sin hv
    have hiff : IsHalfUp q n ↔ ¬Overshoots q := by
      refine ⟨fun h hover => ?_, hhalfUp⟩
      have heq := (isHalfUp_iff.mp h).trans (isHalfUp_iff.mp (hnext hover)).symm
      omega
    refine ⟨⟨⌊q + 1 / 2⌋, isHalfUp_iff.mpr rfl, fun m hm => isHalfUp_iff.mp hm⟩, n, hn, hiff, hnext,
      ?_⟩
    rintro k rfl
    rw [← overshoots_intCast, ← hiff, isHalfUp_iff, floor_add_half]
  · obtain ⟨hx, hy⟩ := Bool.and_eq_true_iff.mp hfinite
    obtain ⟨m, hm⟩ := roundHalfUp_of_isFinite cos sin hx
    obtain ⟨n, hn⟩ := roundHalfUp_of_isFinite cos sin hy
    have hpixel : p.pixel A = .ok (m, n) := by
      rw [Pen.pixel, hm, hn]
      rfl
    refine ⟨m, n, hm, hn, hpixel, ?_⟩
    rw [Course.point, hfinite, hpixel]
    rfl

theorem pixel_isHalfUp_iff_half :
    value? 0.5 = some (.ofRat (1 / 2)) ∧ roundHalfUp .machine 0.5 = .ok 1 := by
  refine ⟨value?_half, ?_⟩
  obtain ⟨_, n, hn, hiff, _⟩ :=
    (pixel_isHalfUp_iff Float.cos Float.sin 8 90).1 0.5 (1 / 2) value?_half
  have hnot : ¬Overshoots (1 / 2) := by
    rintro (hbelow | ⟨k, _, hlarge, _, hk⟩)
    · norm_num at hbelow
    · have hone : k < 1 := by
        exact_mod_cast (by rw [← hk]; norm_num : (k : ℚ) < 1)
      have hpos : 0 < k := by
        exact_mod_cast (by rw [← hk]; norm_num : (0 : ℚ) < k)
      omega
  have hone : n = 1 := by
    rw [isHalfUp_iff.mp (hiff.mpr hnot)]
    norm_num
  rw [← hone]
  exact hn

/-- The double just below a half and an odd number of 53 binary digits become the next pixel. -/
theorem pixel_overshoots :
    (value? 0.49999999999999994 = some (.ofRat (1 / 2 - 2 ^ (-54 : ℤ))) ∧
      roundHalfUp .machine 0.49999999999999994 = .ok 1 ∧ ¬IsHalfUp (1 / 2 - 2 ^ (-54 : ℤ)) 1) ∧
    value? 4503599627370497 = some (.ofRat 4503599627370497) ∧
      roundHalfUp .machine 4503599627370497 = .ok 4503599627370498 ∧
      ¬IsHalfUp 4503599627370497 4503599627370498 := by
  refine ⟨⟨?_, by rfl, ?_⟩, ?_, by rfl, ?_⟩
  · have hexact : exact 0.49999999999999994 = .finite false ⟨2 ^ 53 - 1, -54⟩ := by rfl
    rw [value?, hexact, Exact.value?, Exact.fraction, Magnitude.value]
    norm_num
  · norm_num [IsHalfUp]
  · have hexact : exact 4503599627370497 = .finite false ⟨2 ^ 52 + 1, 0⟩ := by rfl
    rw [value?, hexact, Exact.value?, Exact.fraction, Magnitude.value]
    norm_num
  · norm_num [IsHalfUp]

end BracketTurtle
