import BracketTurtle.Pen
import BracketTurtle.Proofs.Decimals

/-!
# Whole bounds

Whole numbers of up to 53 binary digits are doubles, and rounding does not lead across a double. So
a result that lies between two of them exactly lies between them after rounding, however often it is
rounded on the way.
-/

namespace BracketTurtle
namespace Number

theorem intCast_le_roundEven {q : ℚ} {k : ℤ} (hk : |k| < 2 ^ 53) (h : k ≤ q) :
    (k : ℚ) ≤ roundEven (q / 2 ^ lastPlace q) * 2 ^ lastPlace q := by
  have hk' : |(k : ℚ)| < 2 ^ (53 : ℤ) := by exact_mod_cast hk
  rcases lt_or_ge |q| (2 ^ (53 : ℤ)) with hlt | hge
  · -- The last place is that of ones or of a fraction, so the number is a multiple of it.
    have hplace : lastPlace q ≤ 0 := by
      by_cases hzero : q = 0
      · rw [hzero, lastPlace, abs_zero, Int.log_zero_right]
        norm_num
      · exact lastPlace_le_of_lt hzero (by rwa [add_zero]) (by norm_num)
    obtain ⟨n, hn⟩ := Int.eq_ofNat_of_zero_le (neg_nonneg.mpr hplace)
    have hpow : (0 : ℚ) < 2 ^ lastPlace q := by positivity
    have hmultiple : (k : ℚ) = (k * 2 ^ n : ℤ) * 2 ^ lastPlace q := by
      have hone : (2 : ℚ) ^ n * 2 ^ lastPlace q = 1 := by
        rw [← zpow_natCast, ← zpow_add₀ two_ne_zero, ← hn, neg_add_cancel, zpow_zero]
      push_cast
      rw [mul_assoc, hone, mul_one]
    have hround : k * 2 ^ n ≤ roundEven (q / 2 ^ lastPlace q) := by
      apply le_roundEven
      rw [le_div_iff₀ hpow, ← hmultiple]
      exact h
    have hcast : ((k * 2 ^ n : ℤ) : ℚ) ≤ roundEven (q / 2 ^ lastPlace q) := by exact_mod_cast hround
    rw [hmultiple]
    gcongr
  · have hlow := (abs_lt.mp hk').1
    have hpos : 0 < q := by
      by_contra hneg
      rw [abs_of_nonpos (not_lt.mp hneg)] at hge
      linarith
    rw [abs_of_pos hpos] at hge
    have hlog : 53 ≤ Int.log 2 q := (Int.zpow_le_iff_le_log one_lt_two hpos).mp hge
    calc (k : ℚ) ≤ 2 ^ (53 : ℤ) := (le_abs_self _).trans hk'.le
      _ ≤ 2 ^ Int.log 2 q := zpow_le_zpow_right₀ one_le_two hlog
      _ ≤ _ := zpow_log_le_roundEven hpos (by omega)

theorem roundEven_le_intCast {q : ℚ} {k : ℤ} (hk : |k| < 2 ^ 53) (h : q ≤ k) :
    roundEven (q / 2 ^ lastPlace q) * 2 ^ lastPlace q ≤ (k : ℚ) := by
  have hneg : ((-k : ℤ) : ℚ) ≤ -q := by
    rw [Int.cast_neg]
    exact neg_le_neg h
  have hle := intCast_le_roundEven (by rwa [abs_neg]) hneg
  have hplace : lastPlace (-q) = lastPlace q := by rw [lastPlace, lastPlace, abs_neg]
  rw [hplace, neg_div, roundEven_neg, Int.cast_neg, Int.cast_neg, neg_mul] at hle
  exact neg_le_neg_iff.mp hle

theorem rounded_between {q : ℚ} {a b : ℤ} (ha : |a| < 2 ^ 53) (hb : |b| < 2 ^ 53) (h : a ≤ q)
    (h' : q ≤ b) : ∃ r, rounded q = .ofRat r ∧ a ≤ r ∧ r ≤ b := by
  have hlow := intCast_le_roundEven ha h
  have hhigh := roundEven_le_intCast hb h'
  refine ⟨_, Value.bounded_of_lt (abs_lt.mpr ⟨?_, ?_⟩), hlow, hhigh⟩
  · exact (abs_lt.mp (intCast_lt_limit ha)).1.trans_le hlow
  · exact hhigh.trans_lt (abs_lt.mp (intCast_lt_limit hb)).2

/-- A fraction that lies between two whole numbers. -/
def IsBetween (x : Float) (a b : ℤ) : Prop := ∃ q, value? x = some (.ofRat q) ∧ a ≤ q ∧ q ≤ b

theorem IsBetween.isFinite {x : Float} {a b : ℤ} (h : IsBetween x a b) : x.isFinite = true := by
  obtain ⟨q, hq, _⟩ := h
  exact isFinite_iff.mpr ⟨q, hq⟩

theorem IsBetween.mono {x : Float} {a b a' b' : ℤ} (h : IsBetween x a b) (ha : a' ≤ a)
    (hb : b ≤ b') : IsBetween x a' b' := by
  obtain ⟨q, hq, hlow, hhigh⟩ := h
  exact ⟨q, hq, (Int.cast_le.mpr ha).trans hlow, hhigh.trans (Int.cast_le.mpr hb)⟩

theorem IsBetween.of_rounded {x : Float} {q : ℚ} {a b : ℤ} (hx : value? x = some (rounded q))
    (ha : |a| < 2 ^ 53) (hb : |b| < 2 ^ 53) (h : a ≤ q) (h' : q ≤ b) : IsBetween x a b := by
  obtain ⟨r, hr, hlow, hhigh⟩ := rounded_between ha hb h h'
  exact ⟨r, hx.trans (congrArg some hr), hlow, hhigh⟩

theorem IsBetween.add {x y : Float} {a b a' b' : ℤ} (hx : IsBetween x a b) (hy : IsBetween y a' b')
    (ha : |a + a'| < 2 ^ 53) (hb : |b + b'| < 2 ^ 53) : IsBetween (x + y) (a + a') (b + b') := by
  obtain ⟨p, hp, hplow, hphigh⟩ := hx
  obtain ⟨q, hq, hqlow, hqhigh⟩ := hy
  refine .of_rounded (value?_add hp hq) ha hb ?_ ?_
  · rw [Int.cast_add]
    exact add_le_add hplow hqlow
  · rw [Int.cast_add]
    exact add_le_add hphigh hqhigh

theorem IsBetween.sub {x y : Float} {a b a' b' : ℤ} (hx : IsBetween x a b) (hy : IsBetween y a' b')
    (ha : |a - b'| < 2 ^ 53) (hb : |b - a'| < 2 ^ 53) : IsBetween (x - y) (a - b') (b - a') := by
  obtain ⟨p, hp, hplow, hphigh⟩ := hx
  obtain ⟨q, hq, hqlow, hqhigh⟩ := hy
  refine .of_rounded (value?_sub hp hq) ha hb ?_ ?_
  · rw [Int.cast_sub]
    exact sub_le_sub hplow hqhigh
  · rw [Int.cast_sub]
    exact sub_le_sub hphigh hqlow

/-! ## Whole doubles -/

theorem value?_ofNat (n : ℕ) : value? (Float.ofNat n) = some (rounded n) := by
  have hdecimal := value?_ofScientific n false 0
  rwa [if_neg Bool.false_ne_true, Nat.cast_zero, zpow_zero, mul_one] at hdecimal

theorem value?_ofInt {k : ℤ} (hk : |k| < 2 ^ 53) : value? (Float.ofInt k) = some (.ofRat k) := by
  have hnat : rounded k.natAbs = .ofRat k.natAbs := by
    have habs : |((k.natAbs : ℕ) : ℤ)| < 2 ^ 53 := by rwa [Int.natCast_natAbs, abs_abs]
    exact rounded_intCast habs
  cases k with
  | ofNat n =>
    have hofInt : Float.ofInt (.ofNat n) = Float.ofNat n := rfl
    rw [hofInt, value?_ofNat]
    exact congrArg some hnat
  | negSucc n =>
    have hofInt : Float.ofInt (.negSucc n) = -Float.ofNat (n + 1) := rfl
    rw [hofInt, value?_neg ((value?_ofNat (n + 1)).trans (congrArg some hnat)), Int.cast_negSucc]
    rfl

theorem isFinite_ofInt {n : ℤ} (h : |(n : ℚ)| + halfPlace < limit) :
    (Float.ofInt n).isFinite = true := by
  have habs : |(n.natAbs : ℚ)| = |(n : ℚ)| := by rw [Nat.cast_natAbs, Int.cast_abs, abs_abs]
  have hsize : (Float.ofNat n.natAbs).isFinite = true :=
    isFinite_of_rounded (value?_ofNat _) (by rwa [habs])
  cases n with
  | ofNat n => exact hsize
  | negSucc n =>
    obtain ⟨q, hq⟩ := isFinite_iff.mp hsize
    exact isFinite_iff.mpr ⟨-q, value?_neg hq⟩

theorem nearest?_eq_some {k : ℤ} (hk : |k| < 2 ^ 53) : nearest? k = some (Float.ofInt k) :=
  if_pos (isFinite_iff.mpr ⟨k, value?_ofInt hk⟩)

theorem value?_ofNat_of_lt {n : ℕ} (hn : n < 2 ^ 53) : value? (Float.ofNat n) = some (.ofRat n) :=
  (value?_ofNat n).trans (congrArg some (rounded_natCast hn))

theorem isBetween_ofInt {k : ℤ} (hk : |k| < 2 ^ 53) : IsBetween (Float.ofInt k) k k :=
  ⟨k, value?_ofInt hk, le_rfl, le_rfl⟩

theorem fraction_le {x y : Float} {p q : ℚ} (hx : value? x = some (.ofRat p))
    (hy : value? y = some (.ofRat q)) (h : x ≤ y) : p ≤ q := by
  obtain ⟨v, w, hv, hw, hle⟩ := le_iff.mp h
  obtain rfl := Option.some.inj (hv.symm.trans hx)
  obtain rfl := Option.some.inj (hw.symm.trans hy)
  exact Value.ofRat_strictMono.le_iff_le.mp hle

theorem exists_fraction_between {x y z : Float} {p r : ℚ} (hx : value? x = some (.ofRat p))
    (hz : value? z = some (.ofRat r)) (h : x ≤ y) (h' : y ≤ z) :
    ∃ q, value? y = some (.ofRat q) ∧ p ≤ q ∧ q ≤ r := by
  obtain ⟨v, w, hv, hw, hle⟩ := le_iff.mp h
  obtain ⟨w', u, hw', hu, hle'⟩ := le_iff.mp h'
  obtain rfl := Option.some.inj (hv.symm.trans hx)
  obtain rfl := Option.some.inj (hw'.symm.trans hw)
  obtain rfl := Option.some.inj (hu.symm.trans hz)
  rcases w'.cases with rfl | rfl | ⟨q, rfl⟩
  · exact absurd hle (by simp [Value.ofRat])
  · exact absurd hle' (by simp [Value.ofRat])
  · exact ⟨q, hw, fraction_le hx hw h, fraction_le hw hz h'⟩

theorem IsBetween.pos {x : Float} {a b : ℤ} (h : IsBetween x a b) (ha : 0 < a) : 0 < x := by
  obtain ⟨q, hq, hlow, _⟩ := h
  have hpos : (0 : ℚ) < q := (Int.cast_pos.mpr ha).trans_le hlow
  have hzero : value? 0 = some (.ofRat 0) := by
    have hnat := value?_ofNat_of_lt (n := 0) (by norm_num)
    rwa [Nat.cast_zero] at hnat
  exact lt_iff.mpr ⟨_, _, hzero, hq, Value.ofRat_strictMono hpos⟩

/-! ## Rounding half up -/

theorem Exact.floor?_eq {v : Exact} {q : ℚ} (h : v.value? = some (.ofRat q)) :
    v.floor? = some ⌊q⌋ := by
  obtain ⟨negative, a, rfl, hq⟩ := Exact.value?_eq_ofRat.mp h
  have hscale : (a.scale : ℚ) ≠ 0 := by exact_mod_cast a.scale_pos.ne'
  have hquot : q = (a.signed negative : ℚ) / a.scale := by
    rw [signed_eq, mul_div_cancel_right₀ _ hscale, hq]
  rw [floor?, hquot, Rat.floor_intCast_div_natCast]

theorem roundHalfUp_eq_floor (cos sin : Float → Float) {v : Float} {r : ℚ}
    (h : value? (v + 0.5) = some (.ofRat r)) :
    BracketTurtle.roundHalfUp (.rounded cos sin) v = .ok ⌊r⌋ := by
  have hsum : (Arithmetic.rounded cos sin).add v 0.5 = v + 0.5 := rfl
  have hfloor := Exact.floor?_eq h
  obtain ⟨negative, m, hexact, _⟩ := Exact.value?_eq_ofRat.mp h
  rw [hexact] at hfloor
  simp [BracketTurtle.roundHalfUp, hsum, hexact, hfloor]

/-- Half up, a number between two whole ones becomes one of them, one between them, or the next. -/
theorem IsBetween.roundHalfUp {v : Float} {a b : ℤ} (h : IsBetween v a b) (cos sin : Float → Float)
    (ha : |a| < 2 ^ 53) (hb : |b + 1| < 2 ^ 53) :
    ∃ n, roundHalfUp (.rounded cos sin) v = .ok n ∧ a ≤ n ∧ n ≤ b + 1 := by
  have hhalf : IsBetween 0.5 0 1 := ⟨1 / 2, value?_half, by norm_num, by norm_num⟩
  obtain ⟨r, hr, hlow, hhigh⟩ := h.add hhalf (by rwa [add_zero]) hb
  rw [add_zero] at hlow
  exact ⟨⌊r⌋, roundHalfUp_eq_floor cos sin hr, Int.le_floor.mpr hlow,
    Int.cast_le.mp ((Int.floor_le r).trans hhigh)⟩

end Number
end BracketTurtle
