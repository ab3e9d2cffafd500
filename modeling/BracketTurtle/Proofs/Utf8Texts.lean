import BracketTurtle.Text.Utf8
import Mathlib.Tactic

/-!
# Texts and their bytes

What is written as bytes is read back as the same text: the bytes of a character leave the reader
between characters again, with this character read.
-/

namespace BracketTurtle
namespace Utf8

/-- A byte within the range that the character asks for adds its six bits. -/
theorem decodeFrom_owed {position n : ℕ} {o : Begun} {read : List Char} {rest : List UInt8}
    (hlow : o.low.toNat ≤ n + 0x80) (hhigh : n + 0x80 ≤ o.high.toNat) (hn : n < 64) :
    decodeFrom position (some o) read (UInt8.ofNat (n + 0x80) :: rest) =
      if o.owed ≤ 1 then
        decodeFrom (position + 1) none (Char.ofNat (o.bits * 64 + n) :: read) rest
      else
        decodeFrom (position + 1)
          (some ⟨o.byte, o.position, o.bits * 64 + n, o.owed - 1, 0x80, 0xbf⟩) read rest := by
  have hbyte : (UInt8.ofNat (n + 0x80)).toNat = n + 0x80 := by
    rw [UInt8.toNat_ofNat']
    omega
  have hin : o.low ≤ UInt8.ofNat (n + 0x80) ∧ UInt8.ofNat (n + 0x80) ≤ o.high := by
    rw [UInt8.le_iff_toNat_le, UInt8.le_iff_toNat_le, hbyte]
    exact ⟨hlow, hhigh⟩
  rw [decodeFrom, if_pos hin, hbyte, Nat.add_sub_cancel]

theorem decodeFrom_begun {position n : ℕ} {b : Begun} {read : List Char} {rest : List UInt8}
    (h : opening position (UInt8.ofNat n) = .begun b) :
    decodeFrom position none read (UInt8.ofNat n :: rest) =
      decodeFrom (position + 1) (some b) read rest := by
  rw [decodeFrom, h]

/-! ## First bytes -/

theorem opening_two (position : ℕ) {v : ℕ} (h : 0x7f < v) (h' : v ≤ 0x7ff) :
    opening position (UInt8.ofNat (v / 64 % 32 + 0xc0)) =
      .begun ⟨UInt8.ofNat (v / 64 % 32 + 0xc0), position, v / 64, 1, 0x80, 0xbf⟩ := by
  have hbyte : (UInt8.ofNat (v / 64 % 32 + 0xc0)).toNat = v / 64 + 0xc0 := by
    rw [UInt8.toNat_ofNat']
    omega
  unfold opening
  rw [hbyte, if_neg (by omega), if_neg (by omega), if_pos (by omega), Nat.add_sub_cancel]

/-- The range of the second byte admits all characters but the surrogates. -/
theorem opening_three (position : ℕ) {v : ℕ} (h : 0x7ff < v) (h' : v ≤ 0xffff)
    (hvalid : v < 0xd800 ∨ 0xdfff < v) :
    ∃ low high, opening position (UInt8.ofNat (v / 4096 % 16 + 0xe0)) =
        .begun ⟨UInt8.ofNat (v / 4096 % 16 + 0xe0), position, v / 4096, 2, low, high⟩ ∧
      low.toNat ≤ v / 64 % 64 + 0x80 ∧ v / 64 % 64 + 0x80 ≤ high.toNat := by
  have hbyte : (UInt8.ofNat (v / 4096 % 16 + 0xe0)).toNat = v / 4096 + 0xe0 := by
    rw [UInt8.toNat_ofNat']
    omega
  unfold opening
  rw [hbyte, if_neg (by omega), if_neg (by omega), if_neg (by omega), if_pos (by omega),
    Nat.add_sub_cancel]
  refine ⟨_, _, rfl, ?_, ?_⟩
  · split
    · simp
      omega
    · simp
  · split
    · simp
      omega
    · simp
      omega

theorem opening_four (position : ℕ) {v : ℕ} (h : 0xffff < v) (h' : v < 0x110000) :
    ∃ low high, opening position (UInt8.ofNat (v / 262144 % 8 + 0xf0)) =
        .begun ⟨UInt8.ofNat (v / 262144 % 8 + 0xf0), position, v / 262144, 3, low, high⟩ ∧
      low.toNat ≤ v / 4096 % 64 + 0x80 ∧ v / 4096 % 64 + 0x80 ≤ high.toNat := by
  have hbyte : (UInt8.ofNat (v / 262144 % 8 + 0xf0)).toNat = v / 262144 + 0xf0 := by
    rw [UInt8.toNat_ofNat']
    omega
  unfold opening
  rw [hbyte, if_neg (by omega), if_neg (by omega), if_neg (by omega), if_neg (by omega),
    if_pos (by omega), Nat.add_sub_cancel]
  refine ⟨_, _, rfl, ?_, ?_⟩
  · split
    · simp
      omega
    · simp
  · split
    · simp
      omega
    · simp
      omega

/-! ## Characters and texts -/

theorem decodeFrom_encodeChar (position : ℕ) (read : List Char) (c : Char) (rest : List UInt8) :
    decodeFrom position none read (String.utf8EncodeChar c ++ rest) =
      decodeFrom (position + (String.utf8EncodeChar c).length) none (c :: read) rest := by
  have hvalid : c.val.toNat < 0xd800 ∨ 0xdfff < c.val.toNat ∧ c.val.toNat < 0x110000 := c.valid
  have hchar : Char.ofNat c.val.toNat = c := Char.ofNat_toNat c
  unfold String.utf8EncodeChar
  generalize hv : c.val.toNat = v at hvalid hchar
  by_cases h1 : v ≤ 0x7f
  · have hopening : opening position (UInt8.ofNat v) = .char c := by
      unfold opening
      rw [UInt8.toNat_ofNat', Nat.mod_eq_of_lt (by omega), if_pos (by omega), hchar]
    simp only [if_pos h1, List.singleton_append, decodeFrom, hopening, List.length_singleton]
  · by_cases h2 : v ≤ 0x7ff
    · have hopening := opening_two position (Nat.lt_of_not_le h1) h2
      have hbits : v / 64 * 64 + v % 64 = v := by omega
      simp only [if_neg h1, if_pos h2, List.cons_append, List.nil_append]
      rw [decodeFrom_begun hopening, decodeFrom_owed (by simp) (by simp; omega) (by omega)]
      simp [hbits, hchar, Nat.add_assoc]
    · by_cases h3 : v ≤ 0xffff
      · obtain ⟨low, high, hopening, hlow, hhigh⟩ :=
          opening_three position (Nat.lt_of_not_le h2) h3 (by omega)
        have hbits : (v / 4096 * 64 + v / 64 % 64) * 64 + v % 64 = v := by omega
        simp only [if_neg h1, if_neg h2, if_pos h3, List.cons_append, List.nil_append]
        rw [decodeFrom_begun hopening, decodeFrom_owed hlow hhigh (by omega), if_neg (by simp),
          decodeFrom_owed (by simp) (by simp; omega) (by omega)]
        simp [hbits, hchar, Nat.add_assoc]
      · obtain ⟨low, high, hopening, hlow, hhigh⟩ :=
          opening_four position (Nat.lt_of_not_le h3) (by omega)
        have hbits : ((v / 262144 * 64 + v / 4096 % 64) * 64 + v / 64 % 64) * 64 + v % 64 = v := by
          omega
        simp only [if_neg h1, if_neg h2, if_neg h3, List.cons_append, List.nil_append]
        rw [decodeFrom_begun hopening, decodeFrom_owed hlow hhigh (by omega), if_neg (by simp),
          decodeFrom_owed (by simp) (by simp; omega) (by omega), if_neg (by simp),
          decodeFrom_owed (by simp) (by simp; omega) (by omega)]
        simp [hbits, hchar, Nat.add_assoc]

theorem decodeFrom_encode (position : ℕ) (read cs : List Char) :
    decodeFrom position none read (encode cs) = .ok (read.reverse ++ cs) := by
  induction cs generalizing position read with
  | nil => simp [encode, decodeFrom]
  | cons c cs ih =>
    have hbytes : encode (c :: cs) = String.utf8EncodeChar c ++ encode cs := List.flatMap_cons
    rw [hbytes, decodeFrom_encodeChar, ih, List.reverse_cons, List.append_assoc]
    rfl

/-- A text is read back from its bytes. -/
theorem decode_encode (cs : List Char) : decode (encode cs) = .ok cs :=
  decodeFrom_encode 0 [] cs

end Utf8
end BracketTurtle
