import BracketTurtle.Number.Places
import BracketTurtle.Number.Text
import BracketTurtle.Proofs.Values

/-!
# Written numbers

The text of a number with a limited number of places hangs on the value of the number alone, so
equal numbers are written alike. It consists of letters, digits, signs and points, so it holds
nothing that stands between numbers. The text that identifies a double holds no more but the plus of
an exponent.
-/

namespace BracketTurtle
namespace Number

theorem eq_or_zero_of_fraction_eq {x y : Float} {s t : Bool} {a b : Magnitude}
    (hx : exact x = .finite s a) (hy : exact y = .finite t b)
    (h : (Exact.finite s a).fraction = (Exact.finite t b).fraction) :
    s = t ∧ a = b ∨ a = ⟨0, 0⟩ ∧ b = ⟨0, 0⟩ := by
  have hzero (negative : Bool) : (Exact.finite negative ⟨0, 0⟩).fraction = 0 := by
    cases negative <;> simp [Exact.fraction, Magnitude.value]
  have hne {negative : Bool} {c : Magnitude} (hc : c.Canonical) :
      (Exact.finite negative c).fraction ≠ 0 := by
    have := Magnitude.value_pos hc.pos
    cases negative <;> simp [Exact.fraction, this.ne']
  rcases finite_cases hx with rfl | ha
  · rcases finite_cases hy with rfl | hb
    · exact .inr ⟨rfl, rfl⟩
    · rw [hzero] at h
      exact absurd h.symm (hne hb)
  · rcases finite_cases hy with rfl | hb
    · rw [hzero] at h
      exact absurd h (hne ha)
    · have hapos := Magnitude.value_pos ha.pos
      have hbpos := Magnitude.value_pos hb.pos
      cases s <;> cases t <;> simp only [Exact.fraction] at h
      · exact .inl ⟨rfl, ha.eq_of_value_eq hb h⟩
      · linarith
      · linarith
      · exact .inl ⟨rfl, ha.eq_of_value_eq hb (neg_injective h)⟩

theorem exact_eq_or_zero {x y : Float} {v : Value} (hx : value? x = some v)
    (hy : value? y = some v) :
    exact x = exact y ∨ ∃ s t, exact x = .finite s ⟨0, 0⟩ ∧ exact y = .finite t ⟨0, 0⟩ := by
  rcases v.cases with rfl | rfl | ⟨q, rfl⟩
  · exact .inl ((Exact.value?_eq_bot.mp hx).trans (Exact.value?_eq_bot.mp hy).symm)
  · exact .inl ((Exact.value?_eq_top.mp hx).trans (Exact.value?_eq_top.mp hy).symm)
  · obtain ⟨s, a, hu, hxq⟩ := Exact.value?_eq_ofRat.mp hx
    obtain ⟨t, b, hw, hyq⟩ := Exact.value?_eq_ofRat.mp hy
    rw [hu, hw]
    rw [hu] at hxq
    rw [hw] at hyq
    rcases eq_or_zero_of_fraction_eq hu hw (hxq.trans hyq.symm) with ⟨rfl, rfl⟩ | ⟨rfl, rfl⟩
    · exact .inl rfl
    · exact .inr ⟨s, t, rfl, rfl⟩

theorem value?_of_exact_zero {x : Float} {negative : Bool}
    (h : exact x = .finite negative ⟨0, 0⟩) : value? x = some (.ofRat 0) := by
  rw [value?, h]
  cases negative <;> simp [Exact.value?, Exact.fraction, Magnitude.value]

theorem beq_zero_iff {x : Float} : (x == 0) = true ↔ value? x = some (.ofRat 0) := by
  have hexact : exact 0 = .finite false ⟨0, 0⟩ := by decide
  have hsame : (x == 0) = true ↔ ∃ v, value? x = some v ∧ value? 0 = some v :=
    Coordinate.same_iff (c := .exact x) (d := .exact 0)
  rw [hsame, value?_of_exact_zero hexact]
  constructor
  · rintro ⟨v, hv, h⟩
    rw [hv, h]
  · intro h
    exact ⟨_, h, rfl⟩

theorem placesText_congr {x y : Float} {v : Value} (hx : value? x = some v)
    (hy : value? y = some v) (places : ℕ) : placesText places x = placesText places y := by
  have hbeq : (x == 0) = (y == 0) := by
    rw [Bool.eq_iff_iff, beq_zero_iff, beq_zero_iff, hx, hy]
  unfold placesText placesChars
  cases hzero : y == 0 with
  | true => simp [hbeq, hzero]
  | false =>
    rcases exact_eq_or_zero hx hy with hexact | ⟨s, t, _, hw⟩
    · simp [hbeq, hzero, hexact]
    · rw [beq_zero_iff.mpr (value?_of_exact_zero hw)] at hzero
      cases hzero

/-! ## Characters -/

def isNumberChar (c : Char) : Bool := c.isAlphanum || c = '-' || c = '.'

theorem isNumberChar_of_isDigit {c : Char} (h : c.isDigit = true) : isNumberChar c = true := by
  simp [isNumberChar, Char.isAlphanum, h]

theorem isDigit_of_mem_digitsText {n : ℕ} {c : Char} (h : c ∈ digitsText n) : c.isDigit = true :=
  Nat.isDigit_of_mem_toDigits (by decide) (by decide) h

theorem isDigit_of_mem_paddedDigits {width n : ℕ} {c : Char} (h : c ∈ paddedDigits width n) :
    c.isDigit = true := by
  rcases List.mem_append.mp h with h | h
  · rw [List.eq_of_mem_replicate h]
    decide
  · exact isDigit_of_mem_digitsText h

theorem mem_of_mem_dropZerosRight {cs : List Char} {c : Char} (h : c ∈ dropZerosRight cs) :
    c ∈ cs := by
  have hrev := List.mem_reverse.mp h
  exact List.mem_reverse.mp ((List.dropWhile_sublist _).subset hrev)

theorem mem_of_mem_strip {cs : List Char} {c : Char} (h : c ∈ strip cs) : c ∈ cs ∨ c = '0' := by
  simp only [strip] at h
  split_ifs at h with hpoint hzero
  · exact .inr (List.mem_singleton.mp h)
  · have hrev := (List.dropWhile_sublist _).subset (List.mem_reverse.mp h)
    exact .inl (mem_of_mem_dropZerosRight (List.mem_reverse.mp hrev))
  · exact .inr (List.mem_singleton.mp h)
  · exact .inl h

theorem isNumberChar_of_mem_fixedDigits {places units : ℕ} {c : Char}
    (h : c ∈ fixedDigits places units) : isNumberChar c = true := by
  rcases List.mem_append.mp h with h | h
  · exact isNumberChar_of_isDigit (isDigit_of_mem_digitsText h)
  · split_ifs at h
    · cases h
    · rcases List.mem_cons.mp h with rfl | h
      · decide
      · exact isNumberChar_of_isDigit (isDigit_of_mem_paddedDigits h)

theorem isNumberChar_of_mem_fixed {places : ℕ} {v : Exact} {c : Char} (h : c ∈ v.fixed places) :
    isNumberChar c = true := by
  have hsign (negative : Bool) : ∀ d ∈ if negative then ['-'] else [], isNumberChar d = true := by
    cases negative <;> simp [isNumberChar]
  have hnan : ∀ d ∈ ['n', 'a', 'n'], isNumberChar d = true := List.all_eq_true.mp (by decide)
  have hinf : ∀ d ∈ ['i', 'n', 'f'], isNumberChar d = true := List.all_eq_true.mp (by decide)
  cases v with
  | notANumber => exact hnan c h
  | infinite negative =>
    rcases List.mem_append.mp h with h | h
    · exact hsign negative c h
    · exact hinf c h
  | finite negative a =>
    rcases List.mem_append.mp h with h | h
    · exact hsign negative c h
    · exact isNumberChar_of_mem_fixedDigits h

theorem isNumberChar_of_mem_placesText {places : ℕ} {x : Float} {c : Char}
    (h : c ∈ (placesText places x).toList) : isNumberChar c = true := by
  rw [placesText, String.toList_ofList, placesChars] at h
  rcases mem_of_mem_strip h with h | rfl
  · exact isNumberChar_of_mem_fixed h
  · decide

section

/-! What is in no number is in no text of a double either, if it is not the plus of an exponent. -/

variable {c : Char} (hc : isNumberChar c = false)
include hc

theorem ne_of_isNumberChar {d : Char} (hd : isNumberChar d = true) : c ≠ d := by
  rintro rfl
  cases hc.symm.trans hd

theorem not_mem_digitsText (n : ℕ) : c ∉ digitsText n := fun h =>
  ne_of_isNumberChar hc (isNumberChar_of_isDigit (isDigit_of_mem_digitsText h)) rfl

variable (hplus : c ≠ '+')
include hplus

theorem not_mem_exponentText (e : ℤ) : c ∉ exponentText e := by
  have hminus := ne_of_isNumberChar hc (d := '-') (by decide)
  have hdigits : c ∉ paddedDigits 2 e.natAbs := fun h =>
    ne_of_isNumberChar hc (isNumberChar_of_isDigit (isDigit_of_mem_paddedDigits h)) rfl
  unfold exponentText
  split_ifs <;> simp [hminus, hplus, hdigits]

theorem not_mem_layout (d : Decimal) : c ∉ d.layout := by
  have hpoint := ne_of_isNumberChar hc (d := '.') (by decide)
  have hmark := ne_of_isNumberChar hc (d := 'e') (by decide)
  have hzero := ne_of_isNumberChar hc (d := '0') (by decide)
  have hdigits := not_mem_digitsText hc d.digits
  have htake (k : ℕ) : c ∉ (digitsText d.digits).take k := fun h => hdigits (List.mem_of_mem_take h)
  have hdrop (k : ℕ) : c ∉ (digitsText d.digits).drop k := fun h => hdigits (List.mem_of_mem_drop h)
  have htail : c ∉ (digitsText d.digits).tail := fun h => hdigits (List.mem_of_mem_tail h)
  have hexponent := not_mem_exponentText hc hplus d.leadingExponent
  unfold Decimal.layout pointAfter
  simp only
  split_ifs <;> simp [hpoint, hmark, hzero, hdigits, htake, hdrop, htail, hexponent]

theorem not_mem_chars (v : Exact) : c ∉ v.chars := by
  have hwords : ∀ d ∈ ['n', 'a', 'i', 'f', '-', '0', '.'], c ≠ d := fun d hd =>
    ne_of_isNumberChar hc (List.all_eq_true.mp (by decide) d hd)
  simp only [List.forall_mem_cons] at hwords
  obtain ⟨hn, ha, hi, hf, hminus, hzero, hpoint, _⟩ := hwords
  cases v with
  | notANumber => simp [Exact.chars, hn, ha]
  | infinite negative => cases negative <;> simp [Exact.chars, hi, hn, hf, hminus]
  | finite negative a =>
    have hlayout := not_mem_layout hc hplus a.shortest
    simp only [Exact.chars, Magnitude.layout]
    split_ifs <;> simp [hminus, hzero, hpoint, hlayout]

theorem not_mem_text (x : Float) : c ∉ (text x).toList := by
  rw [text, String.toList_ofList]
  exact not_mem_chars hc hplus _

end

end Number
end BracketTurtle
