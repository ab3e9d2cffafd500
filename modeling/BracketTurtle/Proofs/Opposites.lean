import BracketTurtle.Proofs.ExactDoubles

/-!
# Opposite numbers

The values of two doubles tell the value of their sum and of their product, infinities included. So
the sum of the opposites is the opposite of the sum, and a product changes its side of zero with one
of its factors. Only the sign of a zero does not follow: a number less itself is the positive zero,
from whichever side it is taken.
-/

namespace BracketTurtle
namespace Number

open Float.Model (UnpackedFloat)
open Float.Model.UnpackedFloat

namespace Value

@[simp] theorem ofRat_ne_bot (q : ℚ) : Value.ofRat q ≠ ⊥ := WithBot.coe_ne_bot

@[simp] theorem ofRat_ne_top (q : ℚ) : Value.ofRat q ≠ ⊤ :=
  fun h => nomatch WithBot.coe_injective h

theorem bot_lt_ofRat (q : ℚ) : ⊥ < Value.ofRat q := bot_lt_iff_ne_bot.mpr (ofRat_ne_bot q)

theorem ofRat_lt_top (q : ℚ) : Value.ofRat q < ⊤ := lt_top_iff_ne_top.mpr (ofRat_ne_top q)

def neg : Value → Value
  | none => ⊤
  | some none => ⊥
  | some (some q) => .ofRat (-q)

@[simp] theorem neg_bot : neg ⊥ = ⊤ := rfl

@[simp] theorem neg_top : neg ⊤ = ⊥ := rfl

@[simp] theorem neg_ofRat (q : ℚ) : neg (.ofRat q) = .ofRat (-q) := rfl

protected theorem neg_neg (v : Value) : v.neg.neg = v := by
  rcases v.cases with rfl | rfl | ⟨q, rfl⟩
  · rfl
  · rfl
  · exact congrArg Value.ofRat (neg_neg q)

protected theorem neg_lt_neg {v w : Value} (h : v < w) : w.neg < v.neg := by
  rcases v.cases with rfl | rfl | ⟨p, rfl⟩ <;> rcases w.cases with rfl | rfl | ⟨q, rfl⟩
  case inr.inr.inr.inr => exact ofRat_strictMono (neg_lt_neg (ofRat_strictMono.lt_iff_lt.mp h))
  case inl.inr.inr => exact ofRat_lt_top (-q)
  case inr.inr.inr.inl => exact bot_lt_ofRat (-p)
  all_goals first | exact h | exact absurd h not_top_lt | exact absurd h not_lt_bot

theorem bounded_neg (q : ℚ) : bounded (-q) = (bounded q).neg := by
  rcases le_or_gt limit q with h | h
  · rw [(bounded_of_ge h).1, (bounded_of_ge h).2, neg_top]
  · rcases le_or_gt limit (-q) with h' | h'
    · have hq := (bounded_of_ge h').2
      rw [neg_neg] at hq
      rw [(bounded_of_ge h').1, hq, neg_bot]
    · have hlt : |q| < limit := abs_lt.mpr ⟨neg_lt.mp h', h⟩
      rw [bounded_of_lt hlt, bounded_of_lt (by rwa [abs_neg]), neg_ofRat]

def side : Value → SignType
  | none => -1
  | some none => 1
  | some (some q) => SignType.sign q

theorem side_neg (v : Value) : v.neg.side = -v.side := by
  rcases v.cases with rfl | rfl | ⟨q, rfl⟩
  · rfl
  · rfl
  · exact Left.sign_neg q

/-- The infinity on a side of zero. -/
def beyond : SignType → Option Value
  | .neg => some ⊥
  | .zero => none
  | .pos => some ⊤

theorem beyond_neg (s : SignType) : beyond (-s) = (beyond s).map neg := by
  cases s <;> rfl

/-- The value of a sum; the two infinities have none. -/
def add? : Value → Value → Option Value
  | some (some p), some (some q) => some (rounded (p + q))
  | none, some none | some none, none => none
  | none, _ | _, none => some ⊥
  | some none, _ | _, some none => some ⊤

/-- The value of a product; an infinity and zero have none. -/
def mul? : Value → Value → Option Value
  | some (some p), some (some q) => some (rounded (p * q))
  | v, w => beyond (v.side * w.side)

end Value

theorem rounded_neg (q : ℚ) : rounded (-q) = (rounded q).neg :=
   (rounded_signed .negative q).trans (Value.bounded_neg _)

namespace Value

theorem add?_neg_neg (v w : Value) : v.neg.add? w.neg = (v.add? w).map neg := by
  rcases v.cases with rfl | rfl | ⟨p, rfl⟩ <;> rcases w.cases with rfl | rfl | ⟨q, rfl⟩
  case inr.inr.inr.inr =>
    have hsum : -p + -q = -(p + q) := by ring
    exact congrArg some ((congrArg rounded hsum).trans (rounded_neg _))
  all_goals rfl

theorem mul?_comm (v w : Value) : v.mul? w = w.mul? v := by
  have hbeyond : beyond (v.side * w.side) = beyond (w.side * v.side) :=
    congrArg beyond (mul_comm _ _)
  rcases v.cases with rfl | rfl | ⟨p, rfl⟩ <;> rcases w.cases with rfl | rfl | ⟨q, rfl⟩
  case inr.inr.inr.inr => exact congrArg (some ∘ rounded) (mul_comm p q)
  all_goals exact hbeyond

theorem mul?_neg_right (v w : Value) : v.mul? w.neg = (v.mul? w).map neg := by
  have hbeyond : beyond (v.side * w.neg.side) = (beyond (v.side * w.side)).map neg := by
    rw [side_neg, mul_neg, beyond_neg]
  rcases v.cases with rfl | rfl | ⟨p, rfl⟩ <;> rcases w.cases with rfl | rfl | ⟨q, rfl⟩
  case inr.inr.inr.inr =>
    have hprod : p * -q = -(p * q) := by ring
    exact congrArg some ((congrArg rounded hprod).trans (rounded_neg _))
  all_goals exact hbeyond

end Value

/-! ## Sums of all doubles -/

def infinite (s : Sign) : Value := if isNegative s then ⊥ else ⊤

theorem value?_packNaN : value? (.ofModel (.pack .notANumber)) = none :=
  value?_notANumber ((unpack_toModel_pack _).trans unpack_packedNaN)

theorem value?_packInfinity (s : Sign) :
    value? (.ofModel (.pack (.infinity s))) = some (infinite s) :=
  value?_infinity ((unpack_toModel_pack _).trans (unpack_packedInfinity s))

/-- The kinds of doubles, with their values. -/
inductive Kind (x : Float) : Prop
  | notANumber : x.toModel.unpack = .notANumber → value? x = none → Kind x
  | infinity {s : Sign} : x.toModel.unpack = .infinity s → value? x = some (infinite s) → Kind x
  | zero {s : Sign} : x.toModel.unpack = .zero s → value? x = some (.ofRat 0) → Kind x
  | finite {s : Sign} {m : ℕ} {e : ℤ} {hm : 0 < m} : x.toModel.unpack = .finite s m e hm →
      value? x = some (.ofRat (signed s (m * 2 ^ e))) → Kind x

theorem kind (x : Float) : Kind x := by
  cases hx : x.toModel.unpack with
  | notANumber => exact .notANumber hx (value?_notANumber hx)
  | infinity s => exact .infinity hx (value?_infinity hx)
  | zero s => exact .zero hx (value?_zero hx)
  | finite s m e hm =>
    refine .finite hx ((value?_finite hx).trans ?_)
    rw [fraction_finite, apply_eq_signed, Int.cast_natCast, signed_mul]

theorem value?_add_eq (x y : Float) :
    value? (x + y) = (value? x).bind fun v => (value? y).bind fun w => v.add? w := by
  cases kind x with
  | notANumber hx hv =>
    rw [toModel_add, hx, hv]
    exact value?_packNaN
  | @infinity s hx hv =>
    cases kind y with
    | notANumber hy hw =>
      rw [toModel_add, hx, hy, hv, hw]
      exact value?_packNaN
    | @infinity t hy hw =>
      rw [toModel_add, hx, hy, hv, hw]
      cases s <;> cases t
      · exact value?_packInfinity .negative
      · exact value?_packNaN
      · exact value?_packNaN
      · exact value?_packInfinity .positive
    | zero hy hw | finite hy hw =>
      rw [toModel_add, hx, hy, hv, hw]
      cases s
      · exact value?_packInfinity .negative
      · exact value?_packInfinity .positive
  | zero hx hv | finite hx hv =>
    cases kind y with
    | notANumber hy hw =>
      rw [toModel_add, hx, hy, hv, hw]
      exact value?_packNaN
    | @infinity t hy hw =>
      rw [toModel_add, hx, hy, hv, hw]
      cases t
      · exact value?_packInfinity .negative
      · exact value?_packInfinity .positive
    | zero hy hw | finite hy hw =>
      rw [value?_add hv hw, hv, hw]
      rfl

theorem value?_add_congr {x y x' y' : Float} (hx : value? x' = value? x)
    (hy : value? y' = value? y) :
    value? (x' + y') = value? (x + y) := by
  rw [value?_add_eq, value?_add_eq, hx, hy]

/-! ## Products of all doubles -/

def sideOf (s : Sign) : SignType := if isNegative s then -1 else 1

theorem side_infinite (s : Sign) : (infinite s).side = sideOf s := by
  cases s <;> rfl

theorem side_finite (s : Sign) {m : ℕ} (hm : 0 < m) (e : ℤ) :
    Value.side (.ofRat (signed s (m * 2 ^ e))) = sideOf s := by
  have hpos : (0 : ℚ) < m * 2 ^ e := by positivity
  cases s with
  | positive => exact sign_pos hpos
  | negative => exact sign_neg (neg_neg_of_pos hpos)

theorem mul?_infinite_left (s : Sign) (w : Value) :
    (infinite s).mul? w = Value.beyond (sideOf s * w.side) := by
  rw [← side_infinite]
  cases s <;> rfl

theorem mul?_infinite_right (v : Value) (t : Sign) :
    v.mul? (infinite t) = Value.beyond (v.side * sideOf t) := by
  rw [← side_infinite]
  rcases v.cases with rfl | rfl | ⟨p, rfl⟩ <;> cases t <;> rfl

theorem value?_packInfinity_mul (s t : Sign) :
    value? (.ofModel (.pack (.infinity (s * t)))) = Value.beyond (sideOf s * sideOf t) := by
  rw [value?_packInfinity]
  cases s <;> cases t <;> rfl

theorem side_zero : Value.side (.ofRat 0) = 0 := sign_zero

theorem value?_mul_eq (x y : Float) :
    value? (x * y) = (value? x).bind fun v => (value? y).bind fun w => v.mul? w := by
  cases kind x with
  | notANumber hx hv =>
    rw [toModel_mul, hx, hv]
    exact value?_packNaN
  | @infinity s hx hv =>
    rw [hv, Option.bind_some]
    cases kind y with
    | notANumber hy hw =>
      rw [toModel_mul, hx, hy, hw]
      exact value?_packNaN
    | @infinity t hy hw =>
      rw [toModel_mul, hx, hy, hw]
      refine (value?_packInfinity_mul s t).trans ?_
      rw [← side_infinite t]
      exact (mul?_infinite_left s _).symm
    | zero hy hw =>
      rw [toModel_mul, hx, hy, hw]
      refine value?_packNaN.trans ((mul?_infinite_left s _).trans ?_).symm
      rw [side_zero, mul_zero]
      rfl
    | @finite t n f hn hy hw =>
      rw [toModel_mul, hx, hy, hw]
      refine (value?_packInfinity_mul s t).trans ?_
      rw [← side_finite t hn f]
      exact (mul?_infinite_left s _).symm
  | zero hx hv =>
    cases kind y with
    | notANumber hy hw =>
      rw [toModel_mul, hx, hy, hv, hw]
      exact value?_packNaN
    | @infinity t hy hw =>
      rw [toModel_mul, hx, hy, hv, hw]
      refine value?_packNaN.trans ((mul?_infinite_right _ t).trans ?_).symm
      rw [side_zero, zero_mul]
      rfl
    | zero hy hw | finite hy hw =>
      rw [value?_mul hv hw, hv, hw]
      rfl
  | @finite s m e hm hx hv =>
    cases kind y with
    | notANumber hy hw =>
      rw [toModel_mul, hx, hy, hv, hw]
      exact value?_packNaN
    | @infinity t hy hw =>
      rw [toModel_mul, hx, hy, hv, hw]
      refine (value?_packInfinity_mul s t).trans ?_
      rw [← side_finite s hm e]
      exact (mul?_infinite_right _ t).symm
    | zero hy hw | finite hy hw =>
      rw [value?_mul hv hw, hv, hw]
      rfl

theorem value?_mul_congr {x y x' y' : Float} (hx : value? x' = value? x)
    (hy : value? y' = value? y) :
    value? (x' * y') = value? (x * y) := by
  rw [value?_mul_eq, value?_mul_eq, hx, hy]

/-! ## Opposites -/

theorem isInf_iff_value? {x : Float} :
    x.isInf = true ↔ value? x = some ⊥ ∨ value? x = some ⊤ := by
  rw [isInf_iff]
  cases kind x with
  | notANumber hx hv => simp [hx, hv]
  | @infinity s hx hv => cases s <;> simp [hx, hv, infinite, isNegative]
  | zero hx hv | finite hx hv => simp [hx, hv]

/-- The value of the second number is that of the first on the other side of zero; what is not a
number is its own opposite. -/
def Opposite (x y : Float) : Prop := value? y = (value? x).map Value.neg

theorem opposite_neg (x : Float) : Opposite x (-x) := by
  have hexact : value? (-x) = (exact x).neg.value? := congrArg Exact.value? (exact_neg x)
  rw [Opposite, hexact, value?]
  cases exact x with
  | notANumber => rfl
  | infinite negative => cases negative <;> rfl
  | finite negative a => cases negative <;> simp [Exact.neg, Exact.value?, Exact.fraction]

/-- The opposite of the opposite is the number itself, bit by bit. -/
protected theorem neg_neg (x : Float) : -(-x) = x := by
  apply exact_injective
  rw [exact_neg, exact_neg]
  cases exact x <;> simp [Exact.neg]

namespace Opposite

variable {x x' y y' : Float}

theorem add (hx : Opposite x x') (hy : Opposite y y') : Opposite (x + y) (x' + y') := by
  rw [Opposite, value?_add_eq, value?_add_eq, hx, hy]
  cases value? x with
  | none => rfl
  | some v =>
    cases value? y with
    | none => rfl
    | some w => exact v.add?_neg_neg w

theorem mul_right (z : Float) (hx : Opposite x x') : Opposite (z * x) (z * x') := by
  rw [Opposite, value?_mul_eq, value?_mul_eq, hx]
  cases value? z with
  | none => rfl
  | some v =>
    cases value? x with
    | none => rfl
    | some w => exact v.mul?_neg_right w

theorem mul_left (z : Float) (hx : Opposite x x') : Opposite (x * z) (x' * z) := by
  have hcomm (u : Float) : value? (u * z) = value? (z * u) := by
    rw [value?_mul_eq, value?_mul_eq]
    cases value? u with
    | none => cases value? z <;> rfl
    | some v =>
      cases value? z with
      | none => rfl
      | some w => exact v.mul?_comm w
  rw [Opposite, hcomm, hcomm]
  exact hx.mul_right z

theorem isFinite_eq (h : Opposite x y) : y.isFinite = x.isFinite := by
  rw [Bool.eq_iff_iff, isFinite_iff, isFinite_iff, h]
  constructor
  · rintro ⟨q, hq⟩
    obtain ⟨v, hv, hneg⟩ := Option.map_eq_some_iff.mp hq
    rcases v.cases with rfl | rfl | ⟨p, rfl⟩
    · cases hneg
    · cases hneg
    · exact ⟨p, hv⟩
  · rintro ⟨q, hq⟩
    exact ⟨-q, by rw [hq, Option.map_some, Value.neg_ofRat]⟩

theorem isInf_eq (h : Opposite x y) : y.isInf = x.isInf := by
  rw [Bool.eq_iff_iff, isInf_iff_value?, isInf_iff_value?, h]
  cases value? x with
  | none => simp
  | some v => rcases v.cases with rfl | rfl | ⟨q, rfl⟩ <;> simp

theorem symm (h : Opposite x y) : Opposite y x := by
  rw [Opposite, h, Option.map_map]
  cases value? x with
  | none => rfl
  | some v => exact congrArg some (Value.neg_neg v).symm

theorem lt_of_lt (hx : Opposite x x') (hy : Opposite y y') (h : x < y) : y' < x' := by
  obtain ⟨v, w, hv, hw, hvw⟩ := lt_iff.mp h
  refine lt_iff.mpr ⟨w.neg, v.neg, ?_, ?_, Value.neg_lt_neg hvw⟩
  · rw [hy, hw, Option.map_some]
  · rw [hx, hv, Option.map_some]

theorem zero_zero : Opposite 0 0 := by
  have hzero : value? 0 = some (.ofRat 0) := value?_zero (s := .positive) (by rfl)
  rw [Opposite, hzero, Option.map_some, Value.neg_ofRat, neg_zero]

theorem lt_zero_iff (h : Opposite x y) : y < 0 ↔ 0 < x :=
  ⟨h.symm.lt_of_lt zero_zero, zero_zero.lt_of_lt h⟩

theorem zero_lt_iff (h : Opposite x y) : 0 < y ↔ x < 0 := h.symm.lt_zero_iff.symm

end Opposite

end Number
end BracketTurtle
