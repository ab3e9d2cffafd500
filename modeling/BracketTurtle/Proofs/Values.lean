import BracketTurtle.Drawing.Point
import Mathlib

/-!
# Values

The value of a number is a fraction, or lies beyond all fractions on one side. What is not a number
has no value, and the two zeros have the same. Numbers are compared by their values, be they
pixels or doubles: the values of doubles are ordered by exponent, then by mantissa, since all
doubles but the least ones use the whole width of the mantissa.
-/

namespace BracketTurtle
namespace Number

/-- Fractions, with something below and something above them all. -/
abbrev Value := WithBot (WithTop ℚ)

def Value.ofRat (q : ℚ) : Value := ((q : WithTop ℚ) : Value)

theorem Value.ofRat_strictMono : StrictMono Value.ofRat := by
  intro p q h
  simpa [Value.ofRat] using h

theorem Value.cases (v : Value) : v = ⊥ ∨ v = ⊤ ∨ ∃ q, v = .ofRat q := by
  rcases v with _ | _ | q
  · exact .inl rfl
  · exact .inr (.inl rfl)
  · exact .inr (.inr ⟨q, rfl⟩)

theorem compare_map {α β : Type} [LinearOrder α] [LinearOrder β] {f : α → β} (hf : StrictMono f)
    (a b : α) : compare (f a) (f b) = compare a b := by
  rw [← cmp_eq_compare, hf.cmp_map_eq, cmp_eq_compare]

theorem compare_swap_rat (p q : ℚ) : (compare p q).swap = compare (-p) (-q) := by
  have hneg : StrictAnti fun q : ℚ => -q := by
    intro p q h
    exact neg_lt_neg h
  rw [← cmp_eq_compare, ← cmp_eq_compare, cmp_swap, ← hneg.cmp_map_eq]

namespace Magnitude

def value (a : Magnitude) : ℚ := a.mantissa * 2 ^ a.exponent

theorem scaledUp_eq (a : Magnitude) : (a.scaledUp : ℚ) = a.value * a.scale := by
  obtain ⟨m, e⟩ := a
  rcases le_total 0 e with he | he
  · have hscale : (-e).toNat = 0 := by omega
    have hpow : (2 : ℚ) ^ e = 2 ^ e.toNat := by rw [← zpow_natCast, Int.toNat_of_nonneg he]
    simp [scaledUp, scale, value, hscale, hpow]
  · have hup : e.toNat = 0 := by omega
    have hpow : (2 : ℚ) ^ (-e).toNat = (2 ^ e)⁻¹ := by
      rw [← zpow_natCast, Int.toNat_of_nonneg (by omega), zpow_neg]
    have hne : (2 : ℚ) ^ e ≠ 0 := by positivity
    simp [scaledUp, scale, value, hup, hpow, hne]

/-- The magnitudes of doubles other than zero. -/
structure Canonical (a : Magnitude) : Prop where
  pos : 0 < a.mantissa
  lt : a.mantissa < 2 ^ 53
  least : -1074 ≤ a.exponent
  full : 2 ^ 52 ≤ a.mantissa ∨ a.exponent = -1074

theorem value_pos {a : Magnitude} (h : 0 < a.mantissa) : 0 < a.value := by
  have : (0 : ℚ) < a.mantissa := by exact_mod_cast h
  unfold value
  positivity

/-- The greater exponent belongs to the greater value. -/
theorem value_lt_of_exponent_lt {a b : Magnitude} (ha : a.Canonical) (hb : b.Canonical)
    (h : a.exponent < b.exponent) : a.value < b.value := by
  have hfull : (2 : ℚ) ^ (52 : ℤ) ≤ b.mantissa := by
    rcases hb.full with hfull | hleast
    · exact_mod_cast hfull
    · have := ha.least
      omega
  have hlt : (a.mantissa : ℚ) < 2 ^ (53 : ℤ) := by exact_mod_cast ha.lt
  have hexp : 53 + a.exponent ≤ 52 + b.exponent := by omega
  calc a.value < 2 ^ (53 : ℤ) * 2 ^ a.exponent := by
        unfold value
        gcongr
    _ = 2 ^ (53 + a.exponent) := by rw [zpow_add₀ two_ne_zero]
    _ ≤ 2 ^ (52 + b.exponent) := by
        gcongr
        norm_num
    _ = 2 ^ (52 : ℤ) * 2 ^ b.exponent := by rw [zpow_add₀ two_ne_zero]
    _ ≤ b.value := by
        unfold value
        gcongr

theorem Canonical.eq_of_value_eq {a b : Magnitude} (ha : a.Canonical) (hb : b.Canonical)
    (h : a.value = b.value) : a = b := by
  obtain ⟨m, e⟩ := a
  obtain ⟨n, f⟩ := b
  obtain rfl : e = f := by
    rcases lt_trichotomy e f with hlt | heq | hlt
    · exact absurd h (value_lt_of_exponent_lt ha hb hlt).ne
    · exact heq
    · exact absurd h (value_lt_of_exponent_lt hb ha hlt).ne'
  have hpow : (2 : ℚ) ^ e ≠ 0 := by positivity
  have hmantissa : (m : ℚ) = n := mul_right_cancel₀ hpow h
  rw [Nat.cast_inj.mp hmantissa]

theorem compare_value {a b : Magnitude} (ha : a.Canonical) (hb : b.Canonical) :
    (compare a.exponent b.exponent).then (compare a.mantissa b.mantissa) =
      compare a.value b.value := by
  rcases lt_trichotomy a.exponent b.exponent with h | h | h
  · rw [compare_lt_iff_lt.mpr h, compare_lt_iff_lt.mpr (value_lt_of_exponent_lt ha hb h)]
    rfl
  · have hpow : (0 : ℚ) < 2 ^ b.exponent := by positivity
    have hscale : StrictMono fun m : ℕ => (m : ℚ) * 2 ^ b.exponent := by
      intro m n hmn
      have : (m : ℚ) < n := by exact_mod_cast hmn
      exact mul_lt_mul_of_pos_right this hpow
    rw [compare_eq_iff_eq.mpr h, value, value, h]
    exact (compare_map hscale a.mantissa b.mantissa).symm
  · rw [compare_gt_iff_gt.mpr h, compare_gt_iff_gt.mpr (value_lt_of_exponent_lt hb ha h)]
    rfl

end Magnitude

namespace Exact

/-- The fraction of a finite number; anything else gives zero. -/
def fraction : Exact → ℚ
  | .finite true a => -a.value
  | .finite false a => a.value
  | _ => 0

def value? : Exact → Option Value
  | .notANumber => none
  | .infinite true => some ⊥
  | .infinite false => some ⊤
  | .finite negative a => some (.ofRat (finite negative a).fraction)

theorem value?_eq_bot {v : Exact} : v.value? = some ⊥ ↔ v = .infinite true := by
  cases v with
  | notANumber => simp [value?]
  | infinite negative => cases negative <;> simp [value?]
  | finite negative a => simp [value?, Value.ofRat]

theorem value?_eq_top {v : Exact} : v.value? = some ⊤ ↔ v = .infinite false := by
  have htop (q : ℚ) : Value.ofRat q ≠ ⊤ := by
    intro h
    cases WithBot.coe_injective h
  cases v with
  | notANumber => simp [value?]
  | infinite negative => cases negative <;> simp [value?]
  | finite negative a => simp [value?, htop]

theorem value?_eq_ofRat {v : Exact} {q : ℚ} :
    v.value? = some (.ofRat q) ↔ ∃ negative a, v = .finite negative a ∧ v.fraction = q := by
  cases v with
  | notANumber => simp [value?]
  | infinite negative => cases negative <;> simp [value?, Value.ofRat]
  | finite negative a => simp [value?, Value.ofRat_strictMono.injective.eq_iff]

theorem signed_eq (negative : Bool) (a : Magnitude) :
    (a.signed negative : ℚ) = (finite negative a).fraction * a.scale := by
  cases negative <;> simp [Magnitude.signed, fraction, a.scaledUp_eq]

theorem compareInt_eq (v : Exact) (n : ℤ) :
    v.compareInt n = v.value?.map fun x => compare x (.ofRat n) := by
  cases v with
  | notANumber => rfl
  | infinite negative =>
    have hbelow : compare (⊥ : Value) (.ofRat n) = .lt :=
      compare_lt_iff_lt.mpr (WithBot.bot_lt_coe _)
    have habove : compare (⊤ : Value) (.ofRat n) = .gt :=
      compare_gt_iff_gt.mpr (WithBot.coe_lt_coe.mpr (WithTop.coe_lt_top _))
    cases negative with
    | true => exact congrArg some hbelow.symm
    | false => exact congrArg some habove.symm
  | finite negative a =>
    have hpos : (0 : ℚ) < a.scale := by exact_mod_cast a.scale_pos
    have hscale : StrictMono fun q : ℚ => q * a.scale := by
      intro p q h
      exact mul_lt_mul_of_pos_right h hpos
    have hcast : compare (a.signed negative) (n * a.scale) =
        compare ((a.signed negative : ℤ) : ℚ) ((n * a.scale : ℤ) : ℚ) :=
      (compare_map Int.cast_strictMono _ _).symm
    rw [compareInt, value?, Option.map_some, compare_map Value.ofRat_strictMono, hcast, signed_eq,
      Int.cast_mul, Int.cast_natCast]
    exact congrArg some (compare_map hscale _ _)

end Exact

/-! ## Doubles -/

def value? (x : Float) : Option Value := (exact x).value?

open Float.Model (UnpackedFloat)

theorem value?_finite {x : Float} {s : UnpackedFloat.Sign} {m : ℕ} {e : ℤ} {hm : 0 < m}
    (h : x.toModel.unpack = .finite s m e hm) :
    value? x = some (.ofRat (Exact.finite (isNegative s) ⟨m, e⟩).fraction) := by
  rw [value?, exact, h]
  rfl

theorem toNat_one_append (m : BitVec 52) : (1#1 ++ m).toNat = 2 ^ 52 + m.toNat := by
  rw [BitVec.toNat_append, ← Nat.shiftLeft_add_eq_or_of_lt m.isLt]
  simp [Nat.shiftLeft_eq]

theorem canonical_of_unpack {x : Float} {s : UnpackedFloat.Sign} {m : ℕ} {e : ℤ} {hm : 0 < m}
    (h : x.toModel.unpack = .finite s m e hm) : Magnitude.Canonical ⟨m, e⟩ := by
  have hbias : ((Float.Model.Format.binary64.exponentBias : ℕ) : ℤ) = 1023 := rfl
  have hbits : ((Float.Model.Format.binary64.mantissaBitsWithoutImplicit : ℕ) : ℤ) = 52 := rfl
  rw [Float.Model.unpack, UnpackedFloat.unpack] at h
  simp only [hbias, hbits] at h
  have hlt : (@UnpackedFloat.unpackMantissa .binary64 x.toModel.toBits.toBitVec).toNat < 2 ^ 52 :=
    BitVec.isLt _
  split at h
  · split at h <;> cases h
  · split at h
    · rename_i hzero
      split at h
      · cases h
      · injection h with _ hmantissa hexponent
        have hnone := congrArg BitVec.toNat hzero
        rw [BitVec.toNat_zero] at hnone
        have hm' : m < 2 ^ 53 := by omega
        have he : e = -1074 := by omega
        exact ⟨hm, hm', he.ge, .inr he⟩
    · rename_i hpos
      injection h with _ hmantissa hexponent
      have hsome :
          (@UnpackedFloat.unpackExponent .binary64 x.toModel.toBits.toBitVec).toNat ≠ 0 := by
        intro h
        exact hpos (BitVec.eq_of_toNat_eq h)
      rw [toNat_one_append] at hmantissa
      have hm' : m < 2 ^ 53 := by omega
      have hfull : 2 ^ 52 ≤ m := by omega
      have he : -1074 ≤ e := by omega
      exact ⟨hm, hm', he, .inl hfull⟩

theorem finite_cases {x : Float} {negative : Bool} {a : Magnitude}
    (h : exact x = .finite negative a) : a = ⟨0, 0⟩ ∨ a.Canonical := by
  rw [exact] at h
  cases hx : x.toModel.unpack with
  | notANumber | infinity s => rw [hx] at h; cases h
  | zero s =>
    rw [hx] at h
    cases h
    exact .inl rfl
  | finite s m e hm =>
    rw [hx] at h
    cases h
    exact .inr (canonical_of_unpack hx)

theorem value?_notANumber {x : Float} (h : x.toModel.unpack = .notANumber) : value? x = none := by
  rw [value?, exact, h]
  rfl

theorem value?_infinity {x : Float} {s : UnpackedFloat.Sign} (h : x.toModel.unpack = .infinity s) :
    value? x = some (if isNegative s then ⊥ else ⊤) := by
  rw [value?, exact, h]
  cases s <;> rfl

theorem value?_zero {x : Float} {s : UnpackedFloat.Sign} (h : x.toModel.unpack = .zero s) :
    value? x = some (.ofRat 0) := by
  rw [value?, exact, h]
  cases s <;> simp [Exact.value?, Exact.fraction, Magnitude.value, isNegative]

theorem compare_finite {s t : UnpackedFloat.Sign} {m n : ℕ} {e f : ℤ} {hm : 0 < m} {hn : 0 < n}
    (ha : Magnitude.Canonical ⟨m, e⟩) (hb : Magnitude.Canonical ⟨n, f⟩) :
    UnpackedFloat.compare (.finite s m e hm) (.finite t n f hn) =
      some (compare (Exact.finite (isNegative s) ⟨m, e⟩).fraction
        (Exact.finite (isNegative t) ⟨n, f⟩).fraction) := by
  have hcompare := Magnitude.compare_value ha hb
  have hapos := Magnitude.value_pos ha.pos
  have hbpos := Magnitude.value_pos hb.pos
  cases s with
  | positive =>
    cases t with
    | positive => exact congrArg some hcompare
    | negative =>
      apply congrArg some
      symm
      apply compare_gt_iff_gt.mpr
      exact (neg_neg_of_pos hbpos).trans hapos
  | negative =>
    cases t with
    | positive =>
      apply congrArg some
      symm
      apply compare_lt_iff_lt.mpr
      exact (neg_neg_of_pos hapos).trans hbpos
    | negative =>
      apply congrArg some
      exact (congrArg Ordering.swap hcompare).trans (compare_swap_rat _ _)

theorem compare_zero {s t : UnpackedFloat.Sign} {n : ℕ} {f : ℤ} {hn : 0 < n} :
    UnpackedFloat.compare (.zero s) (.finite t n f hn) =
      some (compare 0 (Exact.finite (isNegative t) ⟨n, f⟩).fraction) ∧
    UnpackedFloat.compare (.finite t n f hn) (.zero s) =
      some (compare (Exact.finite (isNegative t) ⟨n, f⟩).fraction 0) := by
  have hpos : 0 < Magnitude.value ⟨n, f⟩ := Magnitude.value_pos hn
  cases t with
  | positive =>
    exact ⟨congrArg some (compare_lt_iff_lt.mpr hpos).symm,
      congrArg some (compare_gt_iff_gt.mpr hpos).symm⟩
  | negative =>
    have hneg : -Magnitude.value ⟨n, f⟩ < 0 := neg_neg_of_pos hpos
    exact ⟨congrArg some (compare_gt_iff_gt.mpr hneg).symm,
      congrArg some (compare_lt_iff_lt.mpr hneg).symm⟩

/-- Doubles are compared by their values. -/
theorem compare_toModel (x y : Float) :
    x.toModel.compare y.toModel =
      (value? x).bind fun v => (value? y).map fun w => compare v w := by
  rw [Float.Model.compare]
  cases hx : x.toModel.unpack with
  | notANumber =>
    rw [value?_notANumber hx]
    rfl
  | infinity s =>
    rw [value?_infinity hx, Option.bind_some]
    cases hy : y.toModel.unpack with
    | notANumber =>
      rw [value?_notANumber hy]
      cases s <;> rfl
    | infinity t =>
      rw [value?_infinity hy]
      cases s <;> cases t <;> rfl
    | zero t =>
      rw [value?_zero hy]
      cases s <;> rfl
    | finite t n f hn =>
      rw [value?_finite hy]
      cases s <;> rfl
  | zero s =>
    rw [value?_zero hx, Option.bind_some]
    cases hy : y.toModel.unpack with
    | notANumber =>
      rw [value?_notANumber hy]
      rfl
    | infinity t =>
      rw [value?_infinity hy]
      cases t <;> rfl
    | zero t =>
      rw [value?_zero hy]
      rfl
    | finite t n f hn =>
      rw [value?_finite hy, compare_zero.1, Option.map_some, compare_map Value.ofRat_strictMono]
  | finite s m e hm =>
    rw [value?_finite hx, Option.bind_some]
    cases hy : y.toModel.unpack with
    | notANumber =>
      rw [value?_notANumber hy]
      rfl
    | infinity t =>
      rw [value?_infinity hy]
      cases t <;> rfl
    | zero t =>
      rw [value?_zero hy, compare_zero.2, Option.map_some, compare_map Value.ofRat_strictMono]
    | finite t n f hn =>
      rw [value?_finite hy, compare_finite (canonical_of_unpack hx) (canonical_of_unpack hy),
        Option.map_some, compare_map Value.ofRat_strictMono]

theorem lt_iff {x y : Float} :
    x < y ↔ ∃ v w, value? x = some v ∧ value? y = some w ∧ v < w := by
  have hmodel : x < y ↔ x.toModel.compare y.toModel = some .lt :=
    decide_eq_true_iff.trans beq_iff_eq
  rw [hmodel, compare_toModel]
  simp [Option.bind_eq_some_iff, compare_lt_iff_lt]

theorem le_iff {x y : Float} :
    x ≤ y ↔ ∃ v w, value? x = some v ∧ value? y = some w ∧ v ≤ w := by
  have hmodel : x ≤ y ↔ (x.toModel.compare y.toModel).any (·.isLE) = true := decide_eq_true_iff
  rw [hmodel, compare_toModel]
  simp [Option.any_eq_true, Option.bind_eq_some_iff, ← Ordering.ne_gt_iff_isLE, compare_le_iff_le]

end Number

/-! ## Coordinates and points -/

namespace Coordinate

def value? : Coordinate → Option Number.Value
  | .pixel n => some (.ofRat n)
  | .exact x => Number.value? x

theorem compareInt_eq_iff {x : Float} {n : ℤ} :
    (Number.exact x).compareInt n = some .eq ↔ Number.value? x = some (.ofRat n) := by
  simp only [Number.Exact.compareInt_eq, Option.map_eq_some_iff, compare_eq_iff_eq]
  constructor
  · rintro ⟨v, hv, rfl⟩
    exact hv
  · intro hv
    exact ⟨_, hv, rfl⟩

theorem same_iff {c d : Coordinate} :
    c.same d = true ↔ ∃ v, c.value? = some v ∧ d.value? = some v := by
  cases c with
  | pixel m =>
    cases d with
    | pixel n => simp [same, value?, Number.Value.ofRat_strictMono.injective.eq_iff, eq_comm]
    | exact y => simp [same, value?, compareInt_eq_iff]
  | exact x =>
    cases d with
    | pixel n => simp [same, value?, compareInt_eq_iff]
    | exact y =>
      have hsame : (x == y) = (x.toModel.compare y.toModel == some .eq) := rfl
      rw [same, hsame, Number.compare_toModel, beq_iff_eq, value?, value?]
      cases Number.value? x with
      | none => simp
      | some v =>
        cases Number.value? y with
        | none => simp
        | some w =>
          simp only [Option.bind_some, Option.map_some, Option.some.injEq, compare_eq_iff_eq,
            exists_eq_left']
          exact eq_comm

theorem same_symm {c d : Coordinate} (h : c.same d = true) : d.same c = true := by
  obtain ⟨v, hc, hd⟩ := same_iff.mp h
  exact same_iff.mpr ⟨v, hd, hc⟩

theorem same_trans {c d e : Coordinate} (h : c.same d = true) (h' : d.same e = true) :
    c.same e = true := by
  obtain ⟨v, hc, hd⟩ := same_iff.mp h
  obtain ⟨w, hd', he⟩ := same_iff.mp h'
  obtain rfl := Option.some.inj (hd.symm.trans hd')
  exact same_iff.mpr ⟨v, hc, he⟩

end Coordinate

namespace Point

theorem same_symm {p q : Point} (h : p.same q = true) : q.same p = true := by
  obtain ⟨hx, hy⟩ := Bool.and_eq_true_iff.mp h
  exact Bool.and_eq_true_iff.mpr ⟨Coordinate.same_symm hx, Coordinate.same_symm hy⟩

theorem same_trans {p q r : Point} (h : p.same q = true) (h' : q.same r = true) :
    p.same r = true := by
  obtain ⟨hx, hy⟩ := Bool.and_eq_true_iff.mp h
  obtain ⟨hx', hy'⟩ := Bool.and_eq_true_iff.mp h'
  exact Bool.and_eq_true_iff.mpr ⟨Coordinate.same_trans hx hx', Coordinate.same_trans hy hy'⟩

theorem same_congr_left {p q : Point} (h : p.same q = true) (r : Point) : p.same r = q.same r :=
  Bool.eq_iff_iff.mpr ⟨same_trans (same_symm h), same_trans h⟩

end Point
end BracketTurtle
