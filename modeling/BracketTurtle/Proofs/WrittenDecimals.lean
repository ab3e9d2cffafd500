import BracketTurtle.Proofs.DoubleTexts
import BracketTurtle.Proofs.WholeBounds

/-!
# Written decimals

A finite number is written with a limited number of places as the decimal that is nearest to it
among those with as many places, the even one of two. Every decimal has one form only: no zero
stands in front of other whole digits or at the end of the fraction, no point without a fraction,
and no sign before a zero. So the text hangs on the rounded value alone, and what is written keeps
the order of the numbers.
-/

namespace BracketTurtle
namespace Number

/-! ## The form of a decimal -/

/-- A zero, or digits that do not begin with one. -/
def IsWhole (ds : List Char) : Prop :=
  ds ≠ [] ∧ (∀ c ∈ ds, c.isDigit = true) ∧ (ds.head? = some '0' → ds = ['0'])

/-- Digits that do not end with a zero. -/
def IsFraction (ds : List Char) : Prop :=
  ds ≠ [] ∧ (∀ c ∈ ds, c.isDigit = true) ∧ ds.getLast? ≠ some '0'

-- Another instance would go through all characters there are.
instance decidableDigits (ds : List Char) : Decidable (∀ c ∈ ds, c.isDigit = true) :=
  List.decidableBAll (fun c => c.isDigit = true) ds

instance (ds : List Char) : Decidable (IsWhole ds) := inferInstanceAs (Decidable (_ ∧ _ ∧ _))

instance (ds : List Char) : Decidable (IsFraction ds) := inferInstanceAs (Decidable (_ ∧ _ ∧ _))

structure Numeral where
  negative : Bool
  whole : List Char
  fraction : List Char
deriving DecidableEq, Repr

namespace Numeral

def size (d : Numeral) : ℚ :=
  digitsValue d.whole + digitsValue d.fraction / 10 ^ d.fraction.length

def value (d : Numeral) : ℚ := if d.negative then -d.size else d.size

def pointed (ds : List Char) : List Char := if ds = [] then [] else '.' :: ds

def chars (d : Numeral) : List Char :=
  (if d.negative then ['-'] else []) ++ (d.whole ++ pointed d.fraction)

def fraction? : List Char → Option (List Char)
  | [] => some []
  | '.' :: ds => if IsFraction ds then some ds else none
  | _ => none

def unsigned? (negative : Bool) (cs : List Char) : Option Numeral :=
  let (whole, rest) := takeDigits cs
  if IsWhole whole then (fraction? rest).map fun ds => ⟨negative, whole, ds⟩ else none

/-- Reads a text of the form `-?(0|[1-9][0-9]*)(\.[0-9]*[1-9])?`, and no other. -/
def read? : List Char → Option Numeral
  | '-' :: cs => unsigned? true cs
  | cs => unsigned? false cs

/-- The whole digits are in their form, and so are those of the fraction, if there is one. -/
structure IsCanonical (d : Numeral) : Prop where
  whole : IsWhole d.whole
  fraction : d.fraction = [] ∨ IsFraction d.fraction

theorem fraction?_eq_some_iff {cs ds : List Char} :
    fraction? cs = some ds ↔ (ds = [] ∨ IsFraction ds) ∧ cs = pointed ds := by
  constructor
  · intro h
    unfold fraction? at h
    split at h
    · cases h
      exact ⟨.inl rfl, rfl⟩
    · split_ifs at h with hfraction
      cases h
      exact ⟨.inr hfraction, (if_neg hfraction.1).symm⟩
    · cases h
  · rintro ⟨rfl | hfraction, rfl⟩
    · rfl
    · rw [pointed, if_neg hfraction.1]
      exact if_pos hfraction

theorem unsigned?_eq_some_iff {negative : Bool} {cs : List Char} {d : Numeral} :
    unsigned? negative cs = some d ↔
      d.IsCanonical ∧ d.negative = negative ∧ cs = d.whole ++ pointed d.fraction := by
  constructor
  · intro h
    have happend := takeDigits_append cs
    simp only [unsigned?] at h
    split_ifs at h with hwhole
    obtain ⟨ds, hds, rfl⟩ := Option.map_eq_some_iff.mp h
    obtain ⟨hfraction, hrest⟩ := fraction?_eq_some_iff.mp hds
    rw [hrest] at happend
    exact ⟨⟨hwhole, hfraction⟩, rfl, happend.symm⟩
  · rintro ⟨⟨hwhole, hfraction⟩, rfl, rfl⟩
    have hstop : ∀ c ∈ (pointed d.fraction).head?, c.isDigit = false := by
      unfold pointed
      split_ifs <;> simp
    have hread := fraction?_eq_some_iff.mpr ⟨hfraction, rfl⟩
    simp only [unsigned?, takeDigits_digits hwhole.2.1 hstop, if_pos hwhole, hread, Option.map_some]

theorem IsCanonical.head?_ne {d : Numeral} (h : d.IsCanonical) (rest : List Char) :
    (d.whole ++ rest).head? ≠ some '-' := by
  obtain ⟨hne, hdigits, _⟩ := h.whole
  obtain ⟨c, cs, hcs⟩ := List.exists_cons_of_ne_nil hne
  rw [hcs] at hdigits ⊢
  intro hc
  obtain rfl : c = '-' := Option.some.inj hc
  exact absurd (hdigits _ List.mem_cons_self) (by decide)

theorem read?_eq_some_iff {cs : List Char} {d : Numeral} :
    read? cs = some d ↔ d.IsCanonical ∧ cs = d.chars := by
  constructor
  · intro h
    unfold read? at h
    split at h
    · obtain ⟨hd, hnegative, rfl⟩ := unsigned?_eq_some_iff.mp h
      rw [chars, if_pos hnegative]
      exact ⟨hd, rfl⟩
    · obtain ⟨hd, hnegative, rfl⟩ := unsigned?_eq_some_iff.mp h
      rw [chars, hnegative]
      exact ⟨hd, rfl⟩
  · rintro ⟨hd, rfl⟩
    rw [chars]
    cases hnegative : d.negative with
    | true => exact unsigned?_eq_some_iff.mpr ⟨hd, hnegative, rfl⟩
    | false =>
      have hhead := hd.head?_ne (pointed d.fraction)
      rw [if_neg Bool.false_ne_true, List.nil_append]
      unfold read?
      split
      · rename_i hcs
        rw [hcs] at hhead
        exact absurd rfl hhead
      · exact unsigned?_eq_some_iff.mpr ⟨hd, hnegative, rfl⟩

/-! ## Units of the last place -/

/-- So many units of `10 ^ -places`. -/
def ofUnits (places : ℕ) (n : ℤ) : Numeral where
  negative := decide (n < 0)
  whole := digitsText (n.natAbs / 10 ^ places)
  fraction :=
    if places = 0 then [] else dropZerosRight (paddedDigits places (n.natAbs % 10 ^ places))

end Numeral

theorem isWhole_digitsText (n : ℕ) : IsWhole (digitsText n) := by
  refine ⟨digitsText_ne_nil n, fun c => isDigit_of_mem_digitsText, ?_⟩
  intro hzero
  rcases Nat.eq_zero_or_pos n with rfl | hn
  · rfl
  · exact absurd hzero (head?_digitsText_ne hn)

theorem exists_dropZerosRight (ds : List Char) :
    ∃ k, ds = dropZerosRight ds ++ List.replicate k '0' := by
  have hzeros : ds.rtakeWhile (· = '0') = List.replicate (ds.rtakeWhile (· = '0')).length '0' := by
    apply List.eq_replicate_of_mem
    intro c hc
    simpa using List.mem_rtakeWhile_imp hc
  refine ⟨(ds.rtakeWhile (· = '0')).length, ?_⟩
  rw [← hzeros]
  exact List.rdropWhile_append_rtakeWhile.symm

theorem getLast?_dropZerosRight_ne (ds : List Char) : (dropZerosRight ds).getLast? ≠ some '0' := by
  intro hlast
  have hne : dropZerosRight ds ≠ [] := by
    intro hnil
    rw [hnil] at hlast
    cases hlast
  rw [List.getLast?_eq_some_getLast hne, Option.some_inj] at hlast
  exact List.rdropWhile_last_not _ _ hne (decide_eq_true hlast)

theorem length_paddedDigits {width n : ℕ} (hwidth : 0 < width) (hn : n < 10 ^ width) :
    (paddedDigits width n).length = width := by
  have hlength : (digitsText n).length ≤ width := Nat.toDigits_length 10 n width hwidth hn
  rw [paddedDigits, List.length_append, List.length_replicate]
  omega

theorem digitsValue_dropZerosRight (ds : List Char) :
    (digitsValue (dropZerosRight ds) : ℚ) / 10 ^ (dropZerosRight ds).length =
      digitsValue ds / 10 ^ ds.length := by
  obtain ⟨k, hk⟩ := exists_dropZerosRight ds
  have hpow : (10 : ℚ) ^ k ≠ 0 := by positivity
  conv_rhs => rw [hk, digitsValue_append, digitsValue_zeros]
  simp only [List.length_append, List.length_replicate]
  push_cast
  rw [add_zero, pow_add, mul_div_mul_right _ _ hpow]

namespace Numeral

theorem length_fraction_ofUnits (places : ℕ) (n : ℤ) :
    (ofUnits places n).fraction.length ≤ places := by
  unfold ofUnits
  split_ifs with hplaces
  · exact Nat.zero_le _
  · have hlt : n.natAbs % 10 ^ places < 10 ^ places := Nat.mod_lt _ (by positivity)
    calc (dropZerosRight (paddedDigits places (n.natAbs % 10 ^ places))).length
        ≤ (paddedDigits places (n.natAbs % 10 ^ places)).length :=
          (List.rdropWhile_prefix _ _).length_le
      _ = places := length_paddedDigits (Nat.pos_of_ne_zero hplaces) hlt

theorem isCanonical_ofUnits (places : ℕ) (n : ℤ) : (ofUnits places n).IsCanonical := by
  refine ⟨isWhole_digitsText _, ?_⟩
  unfold ofUnits
  split_ifs
  · exact .inl rfl
  · refine or_iff_not_imp_left.mpr fun hne => ⟨hne, ?_, getLast?_dropZerosRight_ne _⟩
    intro c hc
    exact isDigit_of_mem_paddedDigits (mem_of_mem_dropZerosRight hc)

theorem size_ofUnits (places : ℕ) (n : ℤ) : (ofUnits places n).size = n.natAbs / 10 ^ places := by
  have hpow : (10 : ℚ) ^ places ≠ 0 := by positivity
  have hlt : n.natAbs % 10 ^ places < 10 ^ places := Nat.mod_lt _ (by positivity)
  have hfraction : (digitsValue (ofUnits places n).fraction : ℚ) /
      10 ^ (ofUnits places n).fraction.length = (n.natAbs % 10 ^ places : ℕ) / 10 ^ places := by
    unfold ofUnits
    split_ifs with hplaces
    · rw [hplaces, pow_zero, Nat.mod_one]
      rfl
    · rw [digitsValue_dropZerosRight, digitsValue_paddedDigits,
        length_paddedDigits (Nat.pos_of_ne_zero hplaces) hlt]
  have hsplit : ((10 ^ places * (n.natAbs / 10 ^ places) + n.natAbs % 10 ^ places : ℕ) : ℚ) =
      n.natAbs := by rw [Nat.div_add_mod]
  rw [size, hfraction, ofUnits, digitsValue_digitsText, ← hsplit]
  push_cast
  rw [add_div, mul_div_cancel_left₀ _ hpow]

theorem value_ofUnits (places : ℕ) (n : ℤ) : (ofUnits places n).value = n / 10 ^ places := by
  have habs : (n.natAbs : ℚ) = |(n : ℚ)| := by rw [Nat.cast_natAbs, Int.cast_abs]
  rw [value, size_ofUnits, habs, ofUnits]
  by_cases hn : n < 0
  · have hn' : (n : ℚ) < 0 := by exact_mod_cast hn
    rw [if_pos (decide_eq_true hn), abs_of_neg hn', neg_div, neg_neg]
  · have hn' : (0 : ℚ) ≤ n := by exact_mod_cast not_lt.mp hn
    rw [if_neg (by simpa using hn), abs_of_nonneg hn']

end Numeral

/-! ## Zeros at the end

Formatting writes all places, and what does not count is taken off the text. What is left is the
decimal in its form.
-/

theorem rdropWhile_append_cons {p : Char → Bool} {c : Char} (hc : p c = false) (cs ds : List Char) :
    (cs ++ c :: ds).rdropWhile p = cs ++ c :: ds.rdropWhile p := by
  have hstop : (c :: cs.reverse).dropWhile p = c :: cs.reverse := by simp [hc]
  have hback : (ds.reverse ++ c :: cs.reverse).dropWhile p =
      ds.reverse.dropWhile p ++ c :: cs.reverse := by
    rw [List.dropWhile_append, hstop]
    split_ifs with hnil
    · rw [List.isEmpty_iff.mp hnil, List.nil_append]
    · rfl
  simp [List.rdropWhile, hback]

/-- The point goes when nothing comes after it. -/
theorem rdropWhile_point {cs ds : List Char} (hcs : '.' ∉ cs) (hds : '.' ∉ ds) :
    (cs ++ '.' :: ds).rdropWhile (· = '.') = cs ++ Numeral.pointed ds := by
  have hlast {es : List Char} (hes : '.' ∉ es) : es.rdropWhile (· = '.') = es := by
    rw [List.rdropWhile_eq_self_iff]
    intro hne hpoint
    exact hes (of_decide_eq_true hpoint ▸ List.getLast_mem hne)
  obtain rfl | ⟨es, c, rfl⟩ := List.eq_nil_or_concat' ds
  · have hpoint : (cs ++ ['.']).rdropWhile (· = '.') = cs.rdropWhile (· = '.') :=
      List.rdropWhile_concat_pos _ _ _ (by decide)
    rw [hpoint, hlast hcs, Numeral.pointed, if_pos rfl, List.append_nil]
  · have hc : ¬decide (c = '.') = true := by
      intro hc
      simp [of_decide_eq_true hc] at hds
    have hsplit : cs ++ '.' :: (es ++ [c]) = (cs ++ '.' :: es) ++ [c] := by simp
    rw [Numeral.pointed, if_neg (by simp), hsplit]
    exact List.rdropWhile_concat_neg _ _ _ hc

theorem strip_append_pointed {front ds : List Char} (hfront : '.' ∉ front) (hds : '.' ∉ ds) :
    let cs := front ++ Numeral.pointed (dropZerosRight ds)
    strip (front ++ Numeral.pointed ds) = if cs = [] ∨ cs = ['-', '0'] then ['0'] else cs := by
  intro cs
  have hdropped : '.' ∉ dropZerosRight ds := fun h => hds (mem_of_mem_dropZerosRight h)
  have hcs : (if '.' ∈ front ++ Numeral.pointed ds then
      Text.trimRightBy (· = '.') (dropZerosRight (front ++ Numeral.pointed ds))
      else front ++ Numeral.pointed ds) = cs := by
    by_cases hnil : ds = []
    · subst hnil
      simp [cs, Numeral.pointed, dropZerosRight, Text.trimRightBy, hfront]
    · have hzeros : dropZerosRight (front ++ '.' :: ds) = front ++ '.' :: dropZerosRight ds :=
        rdropWhile_append_cons (by decide) front ds
      rw [Numeral.pointed, if_neg hnil, if_pos (by simp), hzeros]
      exact rdropWhile_point hfront hdropped
  rw [strip, hcs]

namespace Numeral

theorem chars_ofUnits_eq_zero_iff {places : ℕ} {n : ℤ} :
    (ofUnits places n).chars = ['0'] ↔ n = 0 := by
  constructor
  · intro h
    have hread := read?_eq_some_iff.mpr ⟨isCanonical_ofUnits places n, rfl⟩
    have hzero : read? ['0'] = some ⟨false, ['0'], []⟩ := by decide
    rw [h, hzero, Option.some_inj] at hread
    have hvalue : (n : ℚ) / 10 ^ places = 0 := by
      rw [← value_ofUnits, ← hread]
      simp [value, size, digitsValue, digitValue]
    simpa using hvalue
  · rintro rfl
    have hpadded : dropZerosRight (paddedDigits places 0) = [] := by
      refine List.rdropWhile_eq_nil_iff.mpr fun c hc => ?_
      rcases List.mem_append.mp hc with hc | hc
      · exact decide_eq_true (List.eq_of_mem_replicate hc)
      · exact decide_eq_true (List.mem_singleton.mp hc)
    have hwhole : digitsText 0 = ['0'] := rfl
    simp [chars, ofUnits, pointed, hpadded, hwhole]

def allPlaces (places units : ℕ) : List Char :=
  if places = 0 then [] else paddedDigits places (units % 10 ^ places)

theorem isDigit_of_mem_allPlaces {places units : ℕ} {c : Char} (h : c ∈ allPlaces places units) :
    c.isDigit = true := by
  unfold allPlaces at h
  split_ifs at h
  · cases h
  · exact isDigit_of_mem_paddedDigits h

theorem fixedDigits_eq (places units : ℕ) :
    fixedDigits places units =
      digitsText (units / 10 ^ places) ++ pointed (allPlaces places units) := by
  have hpadded : paddedDigits places (units % 10 ^ places) ≠ [] := by
    simp [paddedDigits, digitsText_ne_nil]
  by_cases hplaces : places = 0
  · simp only [fixedDigits, pointed, allPlaces, if_pos hplaces]
    rfl
  · simp only [fixedDigits, pointed, allPlaces, if_neg hplaces, if_neg hpadded]
    rfl

theorem chars_ofUnits_natCast (places units : ℕ) :
    (ofUnits places units).chars =
      digitsText (units / 10 ^ places) ++ pointed (dropZerosRight (allPlaces places units)) := by
  have hsign : ¬(units : ℤ) < 0 := by omega
  by_cases hplaces : places = 0
  · simp only [chars, ofUnits, allPlaces, if_pos hplaces, Int.natAbs_natCast, hsign, decide_false]
    rfl
  · simp only [chars, ofUnits, allPlaces, if_neg hplaces, Int.natAbs_natCast, hsign, decide_false]
    rfl

theorem chars_ofUnits_neg (places : ℕ) {units : ℕ} (h : units ≠ 0) :
    (ofUnits places (-units)).chars = '-' :: (ofUnits places units).chars := by
  have hsign : ¬(units : ℤ) < 0 := by omega
  simp [chars, ofUnits, hsign, Nat.pos_of_ne_zero h]

end Numeral

/-- What is left of a finite number with all its places. -/
theorem strip_fixed (places : ℕ) (negative : Bool) (a : Magnitude) :
    strip ((Exact.finite negative a).fixed places) =
      (Numeral.ofUnits places
        (if negative then -(a.units places : ℤ) else a.units places)).chars := by
  generalize hunits : a.units places = units
  have hpoint {cs : List Char} (hcs : ∀ c ∈ cs, c.isDigit = true) : '.' ∉ cs := fun h =>
    absurd (hcs _ h) (by decide)
  have hwhole : '.' ∉ digitsText (units / 10 ^ places) := hpoint fun _ => isDigit_of_mem_digitsText
  have hfixed : (Exact.finite negative a).fixed places =
      ((if negative then ['-'] else []) ++ digitsText (units / 10 ^ places)) ++
        Numeral.pointed (Numeral.allPlaces places units) := by
    rw [Exact.fixed, hunits, Numeral.fixedDigits_eq, List.append_assoc]
  rw [hfixed, strip_append_pointed (by cases negative <;> simp [hwhole])
    (hpoint fun _ => Numeral.isDigit_of_mem_allPlaces), List.append_assoc,
    ← Numeral.chars_ofUnits_natCast]
  cases negative with
  | false =>
    obtain ⟨c, cs, hcs, hc⟩ := exists_digitsText_cons (units / 10 ^ places)
    have hdash : c ≠ '-' := by
      rintro rfl
      cases hc
    simp [Numeral.chars_ofUnits_natCast, hcs, hdash]
  | true =>
    have hzero : (Numeral.ofUnits places units).chars = ['0'] ↔ units = 0 := by
      rw [Numeral.chars_ofUnits_eq_zero_iff, Nat.cast_eq_zero]
    by_cases hn : units = 0
    · have hchars := hzero.mpr hn
      rw [hn] at hchars ⊢
      simp only [hchars]
      exact hchars.symm
    · simp [Numeral.chars_ofUnits_neg places hn, hzero, hn]

/-- What is written is the nearest number of units. -/
theorem placesChars_eq (places : ℕ) {x : Float} {q : ℚ} (hx : value? x = some (.ofRat q)) :
    placesChars places x = (Numeral.ofUnits places (roundEven (q * 10 ^ places))).chars := by
  have hsigned : value? (if x == 0 then 0 else x) = some (.ofRat q) := by
    split_ifs with hzero
    · rw [← hx, beq_zero_iff.mp hzero]
      exact value?_of_exact_zero (x := 0) (by decide : exact 0 = .finite false ⟨0, 0⟩)
    · exact hx
  obtain ⟨negative, a, ha, rfl⟩ := Exact.value?_eq_ofRat.mp hsigned
  have hunits : (a.units places : ℤ) = roundEven (a.value * 10 ^ places) := by
    have hscale : (a.scale : ℚ) ≠ 0 := by exact_mod_cast a.scale_pos.ne'
    have hquot : a.value * 10 ^ places = ((a.scaledUp * 10 ^ places : ℕ) : ℚ) / a.scale := by
      push_cast
      rw [a.scaledUp_eq, mul_right_comm, mul_div_cancel_right₀ _ hscale]
    rw [hquot, roundEven_div _ a.scale_pos]
    rfl
  simp only [placesChars, ha, strip_fixed]
  cases negative with
  | true =>
    rw [Exact.fraction, neg_mul, roundEven_neg, ← hunits]
    simp
  | false =>
    rw [Exact.fraction, ← hunits]
    simp

theorem read?_placesText (places : ℕ) {x : Float} {q : ℚ} (hx : value? x = some (.ofRat q)) :
    Numeral.read? (placesText places x).toList =
      some (Numeral.ofUnits places (roundEven (q * 10 ^ places))) := by
  rw [placesText, String.toList_ofList, placesChars_eq places hx]
  exact Numeral.read?_eq_some_iff.mpr ⟨Numeral.isCanonical_ofUnits _ _, rfl⟩

/-- The decimal is nearest to the number among those with so many places, the even one of two. It
has a sign if it is below zero, and only then. -/
structure Numeral.Rounds (d : Numeral) (places : ℕ) (q : ℚ) : Prop where
  fits : d.fraction.length ≤ places
  nearest : ∃ n : ℤ, IsNearest (q * 10 ^ places) n ∧ d.value = n / 10 ^ places
  sign : d.negative = true ↔ d.value < 0

theorem Numeral.rounds_ofUnits (places : ℕ) (q : ℚ) :
    (ofUnits places (roundEven (q * 10 ^ places))).Rounds places q where
  fits := length_fraction_ofUnits _ _
  nearest := ⟨_, isNearest_roundEven _, value_ofUnits _ _⟩
  sign := by
    rw [value_ofUnits, div_lt_iff₀ (by positivity), zero_mul, Int.cast_lt_zero]
    exact decide_eq_true_iff

/-- A decimal with a sign is below zero, so it is no zero. -/
theorem placesText_ne_negative_zero {places : ℕ} {x : Float} {q : ℚ}
    (hx : value? x = some (.ofRat q)) : placesText places x ≠ "-0" := by
  intro htext
  have hread := read?_placesText places hx
  have hzero : Numeral.read? "-0".toList = some ⟨true, ['0'], []⟩ :=
    Numeral.read?_eq_some_iff.mpr ⟨⟨isWhole_digitsText 0, .inl rfl⟩, rfl⟩
  rw [htext, hzero, Option.some_inj] at hread
  have hsign := (Numeral.rounds_ofUnits places q).sign
  rw [← hread] at hsign
  have hvalue : Numeral.value ⟨true, ['0'], []⟩ = 0 := by
    have hdigits : digitsValue ['0'] = 0 ∧ digitsValue [] = 0 := by decide
    simp [Numeral.value, Numeral.size, hdigits]
  exact absurd (hsign.mp rfl) (by rw [hvalue]; exact lt_irrefl 0)

theorem placesText_congr_rounded {places : ℕ} {x y : Float} {p q : ℚ} {n : ℤ}
    (hx : value? x = some (.ofRat p)) (hy : value? y = some (.ofRat q))
    (hp : IsNearest (p * 10 ^ places) n) (hq : IsNearest (q * 10 ^ places) n) :
    placesText places x = placesText places y := by
  rw [placesText, placesText, placesChars_eq places hx, placesChars_eq places hy,
    roundEven_eq_of_isNearest hp, roundEven_eq_of_isNearest hq]

/-- A finite number is written as a decimal in its form, with no more digits after the point than
there are places: the nearest such decimal, the even one of two, and never a zero with a sign.
Numbers that are rounded alike are written alike, equal numbers among them, and what is written
keeps the order of the numbers. -/
theorem placesText_nearest (places : ℕ) {x : Float} (hx : x.isFinite = true) :
    ∃ p d, value? x = some (.ofRat p) ∧ Numeral.read? (placesText places x).toList = some d ∧
      d.Rounds places p ∧ placesText places x ≠ "-0" ∧
      ∀ y q e, value? y = some (.ofRat q) → Numeral.read? (placesText places y).toList = some e →
        (x ≤ y → d.value ≤ e.value) ∧ (p = q → placesText places x = placesText places y) ∧
        ((∃ n, IsNearest (p * 10 ^ places) n ∧ IsNearest (q * 10 ^ places) n) →
          placesText places x = placesText places y) := by
  obtain ⟨p, hp⟩ := isFinite_iff.mp hx
  refine ⟨p, _, hp, read?_placesText places hp, Numeral.rounds_ofUnits places p,
    placesText_ne_negative_zero hp, ?_⟩
  intro y q e hq he
  rw [read?_placesText places hq, Option.some_inj] at he
  refine ⟨?_, ?_, ?_⟩
  · intro hle
    have hround : roundEven (p * 10 ^ places) ≤ roundEven (q * 10 ^ places) := by
      apply roundEven_mono
      have hpq := fraction_le hp hq hle
      gcongr
    rw [← he, Numeral.value_ofUnits, Numeral.value_ofUnits]
    gcongr
  · rintro rfl
    exact placesText_congr hp hq places
  · rintro ⟨n, hpn, hqn⟩
    exact placesText_congr_rounded hp hq hpn hqn

/-- An eighth lies halfway between two numbers of hundredths. -/
theorem placesText_nearest_eighth :
    (0.125 : Float).isFinite = true ∧ placesText 2 0.125 = "0.12" ∧
      ∃ d, Numeral.read? "0.12".toList = some d ∧ d.Rounds 2 (1 / 8) := by
  have hfinite : (0.125 : Float).isFinite = true := by decide +kernel
  have htext : placesText 2 0.125 = "0.12" := by decide +kernel
  have hexact : exact 0.125 = .finite false ⟨2 ^ 52, -55⟩ := by rfl
  have hvalue : value? 0.125 = some (.ofRat (1 / 8)) := by
    rw [value?, hexact, Exact.value?, Exact.fraction, Magnitude.value]
    norm_num
  obtain ⟨p, d, hp, hread, hrounds, _⟩ := placesText_nearest 2 hfinite
  obtain rfl : p = 1 / 8 :=
    Value.ofRat_strictMono.injective (Option.some.inj (hp.symm.trans hvalue))
  exact ⟨hfinite, htext, d, htext ▸ hread, hrounds⟩

end Number
end BracketTurtle
