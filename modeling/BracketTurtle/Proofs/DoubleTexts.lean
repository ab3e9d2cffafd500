import BracketTurtle.Json.Reader
import BracketTurtle.Json.Writer
import BracketTurtle.Proofs.ExactDoubles
import BracketTurtle.Proofs.ShortestDecimals
import BracketTurtle.Proofs.WrittenNumbers

/-!
# Texts of numbers

The text of a number is read back as that number: a whole number as the same whole number, a double
as the same double, with the sign of a zero. The three layouts of a double give the decimal that was
written, if not with the same digits and the same exponent, then with the same value.
-/

namespace BracketTurtle
namespace Number

/-! ## Reading digits -/

theorem digitsValue_append (cs ds : List Char) :
    digitsValue (cs ++ ds) = digitsValue cs * 10 ^ ds.length + digitsValue ds := by
  have happend := Nat.ofDigitChars_append (b := 10) (l := cs) (m := ds) 0
  have hshift : Nat.ofDigitChars 10 ds (digitsValue cs) =
      10 ^ ds.length * digitsValue cs + digitsValue ds := Nat.ofDigitChars_eq_ofDigitChars_zero
  rw [Nat.mul_comm] at hshift
  exact happend.trans hshift

theorem digitsValue_digitsText (n : ℕ) : digitsValue (digitsText n) = n :=
  Nat.ofDigitChars_ten_toDigits

theorem digitsValue_zeros (n : ℕ) : digitsValue (List.replicate n '0') = 0 := by
  have hzeros : digitsValue (List.replicate n '0') = 10 ^ n * 0 := Nat.ofDigitChars_replicate_zero
  rwa [Nat.mul_zero] at hzeros

theorem digitsValue_paddedDigits (width n : ℕ) : digitsValue (paddedDigits width n) = n := by
  rw [paddedDigits, digitsValue_append, digitsValue_zeros, Nat.zero_mul, Nat.zero_add,
    digitsValue_digitsText]

theorem digitsText_ne_nil (n : ℕ) : digitsText n ≠ [] := Nat.toDigits_ne_nil

theorem exists_digitsText_cons (n : ℕ) : ∃ c rest, digitsText n = c :: rest ∧ c.isDigit = true := by
  obtain ⟨c, rest, h⟩ := List.exists_cons_of_ne_nil (digitsText_ne_nil n)
  refine ⟨c, rest, h, isDigit_of_mem_digitsText (n := n) ?_⟩
  rw [h]
  exact List.mem_cons_self

theorem paddedDigits_ne_nil (width n : ℕ) : paddedDigits width n ≠ [] := by
  rw [paddedDigits]
  exact List.append_ne_nil_of_right_ne_nil _ (digitsText_ne_nil n)

theorem head?_digitsText_ne {n : ℕ} (hn : 0 < n) : (digitsText n).head? ≠ some '0' := by
  induction n using Nat.strong_induction_on with
  | _ n ih =>
    by_cases hlt : n < 10
    · rw [digitsText, Nat.toDigits_of_lt_base hlt]
      interval_cases n <;> decide
    · have htens : digitsText n = digitsText (n / 10) ++ [Nat.digitChar (n % 10)] :=
        Nat.toDigits_of_base_le (by norm_num) (not_lt.mp hlt)
      rw [htens, List.head?_append_of_ne_nil _ (digitsText_ne_nil _)]
      exact ih (n / 10) (by omega) (by omega)

/-- Nothing more of a number follows. -/
structure EndsNumber (rest : List Char) : Prop where
  noDigit : ∀ c ∈ rest.head?, c.isDigit = false
  noPoint : rest.head? ≠ some '.'
  noMark : rest.head? ≠ some 'e' ∧ rest.head? ≠ some 'E'

theorem takeDigits_digits {ds rest : List Char} (hds : ∀ c ∈ ds, c.isDigit = true)
    (hrest : ∀ c ∈ rest.head?, c.isDigit = false) : takeDigits (ds ++ rest) = (ds, rest) := by
  have hstop : rest.takeWhile Char.isDigit = [] ∧ rest.dropWhile Char.isDigit = rest := by
    cases rest with
    | nil => exact ⟨rfl, rfl⟩
    | cons c cs =>
      have hc := hrest c rfl
      exact ⟨List.takeWhile_cons_of_neg (by simp [hc]), List.dropWhile_cons_of_neg (by simp [hc])⟩
  rw [takeDigits, List.takeWhile_append_of_pos hds, List.dropWhile_append_of_pos hds, hstop.1,
    hstop.2, List.append_nil]

end Number

namespace Json

open Number

/-! ## Parts of a number -/

theorem wholePart_zero (rest : List Char) : wholePart ('0' :: rest) = (['0'], rest) := rfl

theorem wholePart_digits {ds rest : List Char} (hds : ∀ c ∈ ds, c.isDigit = true) (hne : ds ≠ [])
    (hzero : ds.head? ≠ some '0') (hrest : ∀ c ∈ rest.head?, c.isDigit = false) :
    wholePart (ds ++ rest) = (ds, rest) := by
  obtain ⟨c, cs, rfl⟩ := List.exists_cons_of_ne_nil hne
  have hc : c ≠ '0' := fun h => hzero (congrArg some h)
  rw [wholePart]
  · exact takeDigits_digits hds hrest
  · intro r hr
    rw [List.cons_append, List.cons.injEq] at hr
    exact hc hr.1

theorem fraction_none {rest : List Char} (h : rest.head? ≠ some '.') :
    fraction rest = ([], rest) := by
  unfold fraction
  split
  · exact absurd rfl h
  · rfl

theorem fraction_digits {ds rest : List Char} (hds : ∀ c ∈ ds, c.isDigit = true) (hne : ds ≠ [])
    (hrest : ∀ c ∈ rest.head?, c.isDigit = false) :
    fraction ('.' :: (ds ++ rest)) = (ds, rest) := by
  simp [fraction, takeDigits_digits hds hrest, hne]

theorem exponent?_none {rest : List Char} (h : rest.head? ≠ some 'e' ∧ rest.head? ≠ some 'E') :
    exponent? rest = none := by
  unfold exponent?
  split
  · rename_i e r
    have hmark : ¬(e = 'e' ∨ e = 'E') := by
      rintro (rfl | rfl)
      · exact h.1 rfl
      · exact h.2 rfl
    rw [if_neg hmark]
  · rfl

theorem exponent?_text (e : ℤ) {rest : List Char} (hrest : ∀ c ∈ rest.head?, c.isDigit = false) :
    exponent? ('e' :: (exponentText e ++ rest)) = some (e, rest) := by
  have hdigits : takeDigits (paddedDigits 2 e.natAbs ++ rest) = (paddedDigits 2 e.natAbs, rest) :=
    takeDigits_digits (fun _ => isDigit_of_mem_paddedDigits) hrest
  have hne := paddedDigits_ne_nil 2 e.natAbs
  have hvalue := digitsValue_paddedDigits 2 e.natAbs
  by_cases h : e < 0
  · have habs : -(e.natAbs : ℤ) = e := by omega
    simp only [exponent?, exponentText, if_pos h, List.cons_append, true_or, if_true, hdigits,
      List.isEmpty_eq_false_iff.mpr hne, hvalue, habs, Bool.false_eq_true, if_false]
  · have habs : (e.natAbs : ℤ) = e := by omega
    simp only [exponent?, exponentText, if_neg h, List.cons_append, true_or, if_true, hdigits,
      List.isEmpty_eq_false_iff.mpr hne, hvalue, habs, Bool.false_eq_true, if_false]

/-- A number from its parts: its sign, its whole part and its fraction, with what comes after. -/
theorem number?_parts (negative : Bool) {cs whole part mid rest : List Char}
    (hsign : cs.head? ≠ some '-') (hwhole : wholePart cs = (whole, mid)) (hne : whole ≠ [])
    (hpart : fraction mid = (part, rest)) :
    number? ((if negative then ['-'] else []) ++ cs) =
      match exponent? rest with
      | some (e, rest) =>
        some (.number (ofDecimal negative (digitsValue (whole ++ part)) (e - part.length)), rest)
      | none =>
        if part.isEmpty then
          some (.integer (if negative then -(digitsValue (whole ++ part) : ℤ)
            else digitsValue (whole ++ part)), rest)
        else
          some (.number (ofDecimal negative (digitsValue (whole ++ part)) (-(part.length : ℤ))),
            rest) := by
  have hempty : whole.isEmpty = false := List.isEmpty_eq_false_iff.mpr hne
  cases negative with
  | true =>
    cases hmark : exponent? rest with
    | none | some _ =>
      simp only [number?, if_true, List.cons_append, List.nil_append, hwhole, hempty,
        Bool.false_eq_true, if_false, hpart, hmark]
  | false =>
    rw [if_neg Bool.false_ne_true, List.nil_append]
    unfold number?
    split
    rename_i negative r hread
    have hunsigned : negative = false ∧ r = cs := by
      split at hread
      · exact absurd rfl hsign
      · exact ⟨(congrArg Prod.fst hread).symm, (congrArg Prod.snd hread).symm⟩
    obtain ⟨rfl, rfl⟩ := hunsigned
    cases hmark : exponent? rest with
    | none | some _ => simp only [hwhole, hempty, Bool.false_eq_true, if_false, hpart, hmark]

theorem head?_ne_of_isDigit {ds : List Char} (hds : ∀ c ∈ ds, c.isDigit = true) (hne : ds ≠ [])
    (rest : List Char) {c : Char} (hc : c.isDigit = false) : (ds ++ rest).head? ≠ some c := by
  obtain ⟨d, ds, rfl⟩ := List.exists_cons_of_ne_nil hne
  intro h
  rw [← Option.some.inj h, hds d List.mem_cons_self] at hc
  cases hc

theorem wholePart_digitsText (n : ℕ) {rest : List Char}
    (hrest : ∀ c ∈ rest.head?, c.isDigit = false) :
    wholePart (digitsText n ++ rest) = (digitsText n, rest) := by
  rcases Nat.eq_zero_or_pos n with rfl | hn
  · rfl
  · exact wholePart_digits (fun _ => isDigit_of_mem_digitsText) (digitsText_ne_nil n)
      (head?_digitsText_ne hn) hrest

theorem number?_integerChars (n : ℤ) {rest : List Char} (h : EndsNumber rest) :
    number? (integerChars n ++ rest) = some (.integer n, rest) := by
  have hsign := head?_ne_of_isDigit (fun _ => isDigit_of_mem_digitsText)
    (digitsText_ne_nil n.natAbs) rest (c := '-') rfl
  have hparts := number?_parts (decide (n < 0)) hsign (wholePart_digitsText n.natAbs h.noDigit)
    (digitsText_ne_nil n.natAbs) (fraction_none h.noPoint)
  rw [exponent?_none h.noMark, List.append_nil, digitsValue_digitsText] at hparts
  simp only [decide_eq_true_eq, List.isEmpty_nil, if_true] at hparts
  rw [integerChars, List.append_assoc, hparts]
  congr 3
  split_ifs <;> omega

/-! ## The layouts of a double -/

theorem number?_fraction (negative : Bool) {whole part rest : List Char}
    (hwhole : wholePart (whole ++ '.' :: (part ++ rest)) = (whole, '.' :: (part ++ rest)))
    (hdigits : ∀ c ∈ whole ++ part, c.isDigit = true) (hne : whole ≠ []) (hne' : part ≠ [])
    (h : EndsNumber rest) :
    number? ((if negative then ['-'] else []) ++ (whole ++ '.' :: (part ++ rest))) =
      some (.number (ofDecimal negative (digitsValue (whole ++ part)) (-(part.length : ℤ))),
        rest) := by
  have hsign := head?_ne_of_isDigit (fun c hc => hdigits c (List.mem_append_left _ hc)) hne
    ('.' :: (part ++ rest)) (c := '-') rfl
  have hpart := fraction_digits (fun c hc => hdigits c (List.mem_append_right _ hc)) hne' h.noDigit
  rw [number?_parts negative hsign hwhole hne hpart, exponent?_none h.noMark]
  simp only [List.isEmpty_eq_false_iff.mpr hne', Bool.false_eq_true, if_false]

theorem wholePart_digit {d : Char} {rest : List Char} (hd : d.isDigit = true)
    (hrest : ∀ c ∈ rest.head?, c.isDigit = false) : wholePart (d :: rest) = ([d], rest) := by
  by_cases hzero : d = '0'
  · rw [hzero]
    exact wholePart_zero rest
  · have hone : ∀ c ∈ [d], c.isDigit = true := by simpa using hd
    exact wholePart_digits hone (List.cons_ne_nil d []) (fun h => hzero (Option.some.inj h)) hrest

/-- One digit before the point, the others after it, and an exponent. -/
theorem number?_scientific (negative : Bool) (n : ℕ) (e : ℤ) {rest : List Char}
    (h : EndsNumber rest) :
    number? ((if negative then ['-'] else []) ++
        ((digitsText n).take 1 ++
          (if (digitsText n).length ≤ 1 then [] else '.' :: (digitsText n).drop 1) ++
          'e' :: exponentText e ++ rest)) =
      some (.number (ofDecimal negative n (e - ((digitsText n).length - 1))), rest) := by
  have hdigits : ∀ c ∈ digitsText n, c.isDigit = true := fun _ => isDigit_of_mem_digitsText
  have hvalue := digitsValue_digitsText n
  have hne := digitsText_ne_nil n
  generalize digitsText n = ds at *
  obtain ⟨d, ds, rfl⟩ := List.exists_cons_of_ne_nil hne
  have hd : d.isDigit = true := hdigits d List.mem_cons_self
  have hmark : ∀ c ∈ ('e' :: (exponentText e ++ rest)).head?, c.isDigit = false := by
    rintro c ⟨⟩
    rfl
  have hcount : e - (((d :: ds).length : ℤ) - 1) = e - ds.length := by
    rw [List.length_cons]
    push_cast
    ring
  have hsign (cs : List Char) : (d :: cs).head? ≠ some '-' :=
    head?_ne_of_isDigit (List.forall_mem_singleton.mpr hd) (List.cons_ne_nil d []) cs rfl
  rw [hcount]
  by_cases hnil : ds = []
  · subst hnil
    have hparts := number?_parts negative (hsign ('e' :: (exponentText e ++ rest)))
      (wholePart_digit hd hmark) (List.cons_ne_nil d []) (fraction_none (by simp))
    rw [exponent?_text e h.noDigit, List.append_nil, hvalue] at hparts
    simpa using hparts
  · have hpoint :
        ∀ c ∈ ('.' :: (ds ++ 'e' :: (exponentText e ++ rest))).head?, c.isDigit = false := by
      rintro c ⟨⟩
      rfl
    have hparts := number?_parts negative
      (hsign ('.' :: (ds ++ 'e' :: (exponentText e ++ rest))))
      (wholePart_digit hd hpoint) (List.cons_ne_nil d [])
      (fraction_digits (fun c hc => hdigits c (List.mem_cons_of_mem d hc)) hnil hmark)
    rw [exponent?_text e h.noDigit] at hparts
    have hlong : ¬(d :: ds).length ≤ 1 := by
      have := List.length_pos_of_ne_nil hnil
      rw [List.length_cons]
      omega
    have hvalue' : digitsValue ([d] ++ ds) = n := hvalue
    rw [if_neg hlong]
    rw [hvalue'] at hparts
    simpa using hparts

theorem number?_small (negative : Bool) (n zeros : ℕ) {rest : List Char} (h : EndsNumber rest) :
    number? ((if negative then ['-'] else []) ++
        (['0', '.'] ++ List.replicate zeros '0' ++ digitsText n ++ rest)) =
      some (.number (ofDecimal negative n (-(zeros + (digitsText n).length : ℤ))), rest) := by
  have hdigits : ∀ c ∈ ['0'] ++ (List.replicate zeros '0' ++ digitsText n), c.isDigit = true := by
    intro c hc
    rcases List.mem_append.mp hc with hc | hc
    · rw [List.mem_singleton.mp hc]
      rfl
    · rcases List.mem_append.mp hc with hc | hc
      · rw [List.eq_of_mem_replicate hc]
        rfl
      · exact isDigit_of_mem_digitsText hc
  have hparts := number?_fraction negative (wholePart_zero _) hdigits (List.cons_ne_nil _ _)
    (List.append_ne_nil_of_right_ne_nil _ (digitsText_ne_nil n)) h
  have hvalue : digitsValue (['0'] ++ (List.replicate zeros '0' ++ digitsText n)) = n := by
    rw [digitsValue_append, digitsValue_append, digitsValue_zeros, digitsValue_digitsText]
    simp [digitsValue, digitValue]
  rw [hvalue, List.length_append, List.length_replicate] at hparts
  push_cast at hparts
  simpa using hparts

theorem wholePart_front {n whole : ℕ} (hn : 0 < n) (hw : 0 < whole) {rest : List Char}
    (hrest : ∀ c ∈ rest.head?, c.isDigit = false) {front : List Char}
    (hfront : front = (digitsText n).take whole ++
      List.replicate (whole - (digitsText n).length) '0') :
    wholePart (front ++ rest) = (front, rest) ∧ front ≠ [] := by
  obtain ⟨d, ds, hds⟩ := List.exists_cons_of_ne_nil (digitsText_ne_nil n)
  obtain ⟨k, rfl⟩ := Nat.exists_eq_succ_of_ne_zero hw.ne'
  have hd : d ≠ '0' := by
    intro h
    apply head?_digitsText_ne hn
    rw [hds, h]
    rfl
  have hcons : front = d :: (ds.take k ++ List.replicate (k + 1 - (digitsText n).length) '0') := by
    rw [hfront, hds]
    rfl
  have hdigits : ∀ c ∈ front, c.isDigit = true := by
    intro c hc
    rw [hfront] at hc
    rcases List.mem_append.mp hc with hc | hc
    · exact isDigit_of_mem_digitsText (List.mem_of_mem_take hc)
    · rw [List.eq_of_mem_replicate hc]
      rfl
  have hne : front ≠ [] := hcons ▸ List.cons_ne_nil _ _
  refine ⟨wholePart_digits hdigits hne ?_ hrest, hne⟩
  rw [hcons]
  exact fun h => hd (Option.some.inj h)

section

variable (negative : Bool) {n whole : ℕ} (hn : 0 < n) (hw : 0 < whole) {rest : List Char}
  (h : EndsNumber rest)
include hn hw h

theorem number?_pointWithin (hlong : whole < (digitsText n).length) :
    number? ((if negative then ['-'] else []) ++ (pointAfter whole (digitsText n) ++ rest)) =
      some (.number (ofDecimal negative n (-(((digitsText n).length - whole : ℕ) : ℤ))), rest) := by
  have hpoint : ∀ c ∈ ('.' :: ((digitsText n).drop whole ++ rest)).head?, c.isDigit = false := by
    rintro c ⟨⟩
    rfl
  have hdigits : ∀ c ∈ digitsText n, c.isDigit = true := fun _ => isDigit_of_mem_digitsText
  obtain ⟨hwhole, hne⟩ := wholePart_front hn hw hpoint rfl
  have hzeros : whole - (digitsText n).length = 0 := by omega
  have hback : (digitsText n).drop whole ≠ [] := by
    rw [ne_eq, List.drop_eq_nil_iff]
    omega
  rw [hzeros, List.replicate_zero, List.append_nil] at hwhole hne
  have hparts := number?_fraction negative hwhole
    (by rw [List.take_append_drop]; exact hdigits) hne hback h
  rw [List.take_append_drop, digitsValue_digitsText, List.length_drop] at hparts
  rw [← hparts, pointAfter]
  simp only [hzeros, List.replicate_zero, List.append_nil, List.isEmpty_eq_false_iff.mpr hback,
    Bool.false_eq_true, if_false, List.append_assoc, List.cons_append]

/-- A point behind the digits, with zeros between, has one more zero behind it. -/
theorem number?_pointBehind (hshort : (digitsText n).length ≤ whole) :
    number? ((if negative then ['-'] else []) ++ (pointAfter whole (digitsText n) ++ rest)) =
      some (.number (ofDecimal negative (n * 10 ^ (whole - (digitsText n).length) * 10) (-1)),
        rest) := by
  have hpoint : ∀ c ∈ ('.' :: (['0'] ++ rest)).head?, c.isDigit = false := by
    rintro c ⟨⟩
    rfl
  obtain ⟨hwhole, hne⟩ := wholePart_front hn hw hpoint rfl
  have htake : (digitsText n).take whole = digitsText n := List.take_of_length_le hshort
  have hdrop : (digitsText n).drop whole = [] := List.drop_of_length_le hshort
  rw [htake] at hwhole hne
  rw [pointAfter, htake, hdrop]
  generalize whole - (digitsText n).length = zeros at *
  have hfront : ∀ c ∈ digitsText n ++ List.replicate zeros '0' ++ ['0'], c.isDigit = true := by
    simp only [List.forall_mem_append, List.forall_mem_singleton]
    refine ⟨⟨fun c hc => isDigit_of_mem_digitsText hc, fun c hc => ?_⟩, rfl⟩
    rw [List.eq_of_mem_replicate hc]
    rfl
  have hparts := number?_fraction negative hwhole hfront hne (List.cons_ne_nil _ _) h
  have hvalue : digitsValue (digitsText n ++ List.replicate zeros '0' ++ ['0']) =
      n * 10 ^ zeros * 10 := by
    rw [digitsValue_append, digitsValue_append, digitsValue_zeros, digitsValue_digitsText,
      List.length_replicate]
    rfl
  rw [hvalue] at hparts
  simpa using hparts

theorem number?_pointAfter :
    ∃ d : Decimal, d.value = (n : ℚ) * 10 ^ ((whole : ℤ) - (digitsText n).length) ∧
      number? ((if negative then ['-'] else []) ++ (pointAfter whole (digitsText n) ++ rest)) =
        some (.number (ofDecimal negative d.digits d.exponent), rest) := by
  by_cases hlong : whole < (digitsText n).length
  · refine ⟨⟨n, _⟩, ?_, number?_pointWithin negative hn hw h hlong⟩
    have hexponent :
        -(((digitsText n).length - whole : ℕ) : ℤ) = whole - (digitsText n).length := by
      omega
    simp only [Decimal.value, hexponent]
  · have hshort := not_lt.mp hlong
    refine ⟨⟨_, -1⟩, ?_, number?_pointBehind negative hn hw h hshort⟩
    have hexponent : (whole : ℤ) - (digitsText n).length = (whole - (digitsText n).length : ℕ) := by
      omega
    rw [hexponent, zpow_natCast, Decimal.value]
    push_cast
    rw [zpow_neg, zpow_one, mul_inv_cancel_right₀ (by norm_num)]

end

theorem number?_layout (negative : Bool) {d : Decimal} (hd : 0 < d.digits) {rest : List Char}
    (h : EndsNumber rest) :
    ∃ d' : Decimal, d'.value = d.value ∧
      number? ((if negative then ['-'] else []) ++ (d.layout ++ rest)) =
        some (.number (ofDecimal negative d'.digits d'.exponent), rest) := by
  have hlead : d.leadingExponent = (digitsText d.digits).length + d.exponent - 1 := rfl
  unfold Decimal.layout
  generalize d.leadingExponent = k at hlead ⊢
  by_cases hfar : k < -4 ∨ 16 ≤ k
  · have hread := number?_scientific negative d.digits k h
    have hexponent : k - ((digitsText d.digits).length - 1) = d.exponent := by omega
    rw [hexponent] at hread
    simp only [if_pos hfar]
    exact ⟨d, rfl, hread⟩
  · by_cases hneg : k < 0
    · have hread := number?_small negative d.digits (-k - 1).toNat h
      have hexponent :
          -(((-k - 1).toNat : ℤ) + (digitsText d.digits).length) = d.exponent := by omega
      rw [hexponent] at hread
      simp only [if_neg hfar, if_pos hneg]
      exact ⟨d, rfl, hread⟩
    · have hwhole : 0 < (k + 1).toNat := by omega
      obtain ⟨d', hvalue, hread⟩ := number?_pointAfter negative hd hwhole h
      have hexponent : ((k + 1).toNat : ℤ) - (digitsText d.digits).length = d.exponent := by omega
      rw [hexponent] at hvalue
      simp only [if_neg hfar, if_neg hneg]
      exact ⟨d', hvalue, hread⟩

/-! ## Numbers -/

theorem exact_ofDecimal {a : Magnitude} (ha : a.Canonical) (hle : a.exponent ≤ 971)
    (negative : Bool) {d : Decimal} (hd : rounded d.value = .bounded a.value) :
    exact (ofDecimal negative d.digits d.exponent) = .finite negative a := by
  have hpos := Magnitude.value_pos ha.pos
  have hlt : |a.value| < limit := by
    rw [abs_of_pos hpos]
    exact ha.exponent_le_iff.mp hle
  have hsize : exact (ofDecimal false d.digits d.exponent) = .finite false a := by
    apply exact_of_value? ha
    rw [value?_ofDecimal, hd, Value.bounded_of_lt hlt]
  cases negative with
  | false => exact hsize
  | true =>
    have hneg : ofDecimal true d.digits d.exponent = -ofDecimal false d.digits d.exponent := by
      simp [ofDecimal]
    rw [hneg, exact_neg, hsize]
    rfl

theorem ofDecimal_zero (negative : Bool) (e : ℤ) :
    exact (ofDecimal negative 0 e) = .finite negative ⟨0, 0⟩ := by
  cases negative with
  | false =>
    have hzero : ofDecimal false 0 e = 0.0 := by simp [ofDecimal]
    rw [hzero]
    rfl
  | true =>
    have hzero : ofDecimal true 0 e = -0.0 := by simp [ofDecimal]
    rw [hzero]
    rfl

theorem shortest_digits_pos {a : Magnitude} (ha : a.Canonical) (hle : a.exponent ≤ 971) :
    0 < a.shortest.digits := by
  have hpos := Magnitude.value_pos ha.pos
  have hlt : |a.value| < limit := by
    rw [abs_of_pos hpos]
    exact ha.exponent_le_iff.mp hle
  apply Nat.pos_of_ne_zero
  intro hzero
  have hround := Magnitude.rounded_shortest ha
  rw [Decimal.value, hzero, Nat.cast_zero, zero_mul, rounded_zero, Value.bounded_of_lt hlt]
    at hround
  exact hpos.ne (Value.ofRat_strictMono.injective hround)

theorem exponent_le_of_exact {x : Float} {negative : Bool} {a : Magnitude}
    (hx : exact x = .finite negative a) (ha : a.Canonical) : a.exponent ≤ 971 := by
  have hvalue : Number.value? x = some (.ofRat (Exact.finite negative a).fraction) := by
    rw [Number.value?, hx]
    rfl
  have habs : |(Exact.finite negative a).fraction| = a.value := by
    have hpos := Magnitude.value_pos ha.pos
    cases negative <;> simp [Exact.fraction, abs_of_pos hpos]
  have hlimit := abs_add_le_limit hvalue
  have hhalf := halfPlace_pos
  rw [habs] at hlimit
  apply ha.exponent_le_iff.mpr
  linarith

/-- The text of a finite double is read as that double. -/
theorem number?_chars {x : Float} {negative : Bool} {a : Magnitude}
    (hx : exact x = .finite negative a) {rest : List Char} (h : EndsNumber rest) :
    number? ((exact x).chars ++ rest) = some (.number x, rest) := by
  rw [hx, Exact.chars, Magnitude.layout, List.append_assoc]
  rcases finite_cases hx with rfl | ha
  · have hwhole : wholePart (['0'] ++ '.' :: (['0'] ++ rest)) = (['0'], '.' :: (['0'] ++ rest)) :=
      rfl
    have hparts := number?_fraction negative hwhole (by simp) (List.cons_ne_nil _ _)
      (List.cons_ne_nil _ _) h
    have hdouble : ofDecimal negative (digitsValue (['0'] ++ ['0'])) (-((['0'].length : ℕ) : ℤ)) =
        x := exact_injective ((ofDecimal_zero negative _).trans hx.symm)
    rw [hdouble] at hparts
    rw [if_pos rfl]
    exact hparts
  · have hle := exponent_le_of_exact hx ha
    obtain ⟨d, hvalue, hread⟩ := number?_layout negative (shortest_digits_pos ha hle) h
    have hround := Magnitude.rounded_shortest ha
    rw [← hvalue] at hround
    have hdouble : ofDecimal negative d.digits d.exponent = x :=
      exact_injective ((exact_ofDecimal ha hle negative hround).trans hx.symm)
    rw [hdouble] at hread
    rw [if_neg (Nat.pos_iff_ne_zero.mp ha.pos)]
    exact hread

end Json
end BracketTurtle
