import BracketTurtle.Proofs.RoundedArithmetic

/-!
# Doubles and their exact values

A double is determined by its exact value, the sign of a zero included: the bits that it is packed
from are told by its sign, its mantissa and its exponent. So a double is found again from the value
it has among the rationals, and taking the negative of a double only turns its sign around.
-/

namespace BracketTurtle
namespace Number

open Float.Model (UnpackedFloat Format)
open Float.Model.UnpackedFloat

theorem toBitVec_ofBitVec (b : BitVec 1) : (Sign.ofBitVec b).toBitVec = b := by
  obtain rfl | rfl := BitVec.eq_zero_or_eq_one b
  · rfl
  · rfl

theorem packComponents_unpack {b : BitVec Format.binary64.numBits} {e : BitVec 11} {m : BitVec 52}
    (he : unpackExponent b = e) (hm : unpackMantissa b = m) :
    packComponents .binary64 (Sign.ofBitVec (unpackSign b)) e m = b := by
  subst he hm
  rw [packComponents, toBitVec_ofBitVec]
  simp only [unpackSign, unpackExponent, unpackMantissa, BitVec.extractLsb]
  ext i hi
  grind

/-- Packing takes unpacking back, as there is one pattern only for what is not a number. -/
theorem pack_unpack {b : BitVec Format.binary64.numBits} (h : Format.binary64.Valid b) :
    pack .binary64 (unpack .binary64 b) = b := by
  have hbias : ((Format.binary64.exponentBias : ℕ) : ℤ) = 1023 := rfl
  have hbits : ((Format.binary64.mantissaBitsWithoutImplicit : ℕ) : ℤ) = 52 := rfl
  have hexponent : (unpackExponent b).toNat < 2 ^ 11 := BitVec.isLt _
  have hmantissa : (unpackMantissa b).toNat < 2 ^ 52 := BitVec.isLt _
  rw [unpack]
  simp only [hbias, hbits]
  split
  · rename_i hones
    split
    · rename_i hzero
      exact packComponents_unpack hones hzero
    · rename_i hne
      exact (h.eq_packedNaN hones hne).symm
  · rename_i hones
    split
    · rename_i hnone
      split
      · rename_i hzero
        exact packComponents_unpack hnone hzero
      · rename_i hne
        have hleast : ((unpackExponent b).toNat : ℤ) - (1023 + 52) + 1 = -1074 := by
          rw [hnone]
          rfl
        simp only [hleast]
        rw [pack_subnormal _ _ hmantissa]
        exact packComponents_unpack hnone (by simp)
    · rename_i hsome
      have hlow : (unpackExponent b).toNat ≠ 0 := fun h => hsome (BitVec.eq_of_toNat_eq h)
      have hhigh : (unpackExponent b).toNat ≠ 2047 := fun h => hones (BitVec.eq_of_toNat_eq h)
      have hfull := toNat_one_append (unpackMantissa b)
      rw [pack_normal _ _ (by omega) (by omega) (by omega)]
      apply packComponents_unpack
      · apply BitVec.eq_of_toNat_eq
        have hback : ((unpackExponent b).toNat - (1023 + 52) + 1075 : ℤ).toNat =
            (unpackExponent b).toNat := by omega
        rw [BitVec.toNat_ofNat, hback]
        exact (Nat.mod_eq_of_lt hexponent).symm
      · apply BitVec.eq_of_toNat_eq
        rw [BitVec.toNat_ofNat, hfull]
        exact ((Nat.add_mod_left _ _).trans (Nat.mod_eq_of_lt hmantissa)).symm

theorem pack_unpack_model (f : Float.Model) : Float.Model.pack f.unpack = f := by
  obtain ⟨bits, h⟩ := f
  have hbits := pack_unpack h
  simp only [Float.Model.pack, Float.Model.unpack, hbits]

theorem isNegative_injective {s t : Sign} (h : isNegative s = isNegative t) : s = t := by
  cases s <;> cases t
  · rfl
  · cases h
  · cases h
  · rfl

theorem exact_injective {x y : Float} (h : exact x = exact y) : x = y := by
  have hunpack : x.toModel.unpack = y.toModel.unpack := by
    rw [exact, exact] at h
    cases hx : x.toModel.unpack with
    | notANumber => cases hy : y.toModel.unpack <;> simp [hx, hy] at h ⊢
    | infinity s =>
      cases hy : y.toModel.unpack <;> simp [hx, hy] at h ⊢
      exact isNegative_injective h
    | zero s =>
      cases hy : y.toModel.unpack <;> simp [hx, hy] at h ⊢
      · exact isNegative_injective h
      · omega
    | finite s m e hm =>
      cases hy : y.toModel.unpack <;> simp [hx, hy] at h ⊢
      · omega
      · exact ⟨isNegative_injective h.1, h.2⟩
  have hmodel : x.toModel = y.toModel := by
    rw [← pack_unpack_model x.toModel, hunpack, pack_unpack_model]
  obtain ⟨f⟩ := x
  obtain ⟨g⟩ := y
  exact congrArg Float.ofModel hmodel

def Exact.neg : Exact → Exact
  | .notANumber => .notANumber
  | .infinite negative => .infinite !negative
  | .finite negative a => .finite (!negative) a

theorem isNegative_neg (s : Sign) : isNegative (-s) = !isNegative s := by
  cases s <;> rfl

theorem exact_neg (x : Float) : exact (-x) = (exact x).neg := by
  have hneg : (-x).toModel.unpack = unpack .binary64 (pack .binary64 x.toModel.unpack.neg) := rfl
  rw [exact, hneg, exact]
  cases hx : x.toModel.unpack with
  | notANumber => rfl
  | infinity s =>
    rw [UnpackedFloat.neg, pack, unpack_packedInfinity]
    exact congrArg Exact.infinite (isNegative_neg s)
  | zero s =>
    rw [UnpackedFloat.neg, pack, unpack_packedZero]
    exact congrArg (Exact.finite · ⟨0, 0⟩) (isNegative_neg s)
  | finite s m e hm =>
    rw [UnpackedFloat.neg, unpack_pack (canonical_of_unpack hx),
      if_pos (exponent_le_of_unpack hx)]
    exact congrArg (Exact.finite · ⟨m, e⟩) (isNegative_neg s)

theorem exact_of_value? {x : Float} {a : Magnitude} (ha : a.Canonical)
    (h : value? x = some (.ofRat a.value)) : exact x = .finite false a := by
  obtain ⟨negative, b, hx, hvalue⟩ := Exact.value?_eq_ofRat.mp h
  have hpos := Magnitude.value_pos ha.pos
  rw [hx] at hvalue ⊢
  rcases finite_cases hx with rfl | hb
  · have hzero : Magnitude.value ⟨0, 0⟩ = 0 := by simp [Magnitude.value]
    cases negative <;> simp only [Exact.fraction, hzero] at hvalue <;> linarith
  · have hbpos := Magnitude.value_pos hb.pos
    cases negative with
    | true =>
      simp only [Exact.fraction] at hvalue
      linarith
    | false => rw [hb.eq_of_value_eq ha hvalue]

end Number
end BracketTurtle
