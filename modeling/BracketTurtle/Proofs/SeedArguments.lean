import BracketTurtle.Proofs.DashedArguments
import BracketTurtle.Proofs.DoubleTexts
import BracketTurtle.Proofs.WordTexts

/-!
# Seeds as arguments

The decimal text of an integer is read as that integer if it has no more digits than the limit, and
as an operand also when it begins with a dash, since it looks like a negative number then. So every
integer within the limit can be given for a seed, and no other.
-/

namespace BracketTurtle

open Number (digitsText integerChars integerText digitValue digitsValue)

/-! ## Reading integers -/

namespace Text

theorem toNat_of_isDigit {c : Char} (h : c.isDigit = true) : 0x30 ≤ c.toNat ∧ c.toNat ≤ 0x39 := by
  simp only [Char.isDigit, Bool.and_eq_true, decide_eq_true_eq] at h
  exact h

theorem ne_of_isDigit {c d : Char} (hc : c.isDigit = true) (hd : d.isDigit = false) : c ≠ d := by
  rintro rfl
  cases hc.symm.trans hd

theorem decimalDigit?_of_isDigit {c : Char} (h : c.isDigit = true) :
    decimalDigit? c = some (digitValue c) := by
  obtain ⟨hlow, hhigh⟩ := toNat_of_isDigit h
  have hfind : zeros.find? (fun z => z ≤ c.toNat && c.toNat ≤ z + 9) = some 0x30 := by
    rw [zeros, List.find?_cons_of_pos]
    simp [hlow, hhigh]
  rw [decimalDigit?, hfind]
  rfl

theorem digitsWithBreaks?_digits {cs : List Char} (h : ∀ c ∈ cs, c.isDigit = true) (value : ℕ) :
    digitsWithBreaks? value cs =
      some (cs.foldl (fun n c => 10 * n + digitValue c) value) := by
  induction cs generalizing value with
  | nil => rfl
  | cons c cs ih =>
    obtain ⟨hc, hcs⟩ := List.forall_mem_cons.mp h
    have hbreak : c ≠ '_' := ne_of_isDigit hc rfl
    unfold digitsWithBreaks?
    split
    · rename_i heq
      cases heq
    · rename_i heq
      cases heq
      exact absurd rfl hbreak
    · rename_i heq
      cases heq
      rw [decimalDigit?_of_isDigit hc, Option.bind_some, ih hcs, List.foldl_cons]

theorem natural?_digitsText (n : ℕ) : natural? (digitsText n) = some n := by
  have hdigits : ∀ c ∈ digitsText n, c.isDigit = true := fun _ => Number.isDigit_of_mem_digitsText
  have hvalue := Number.digitsValue_digitsText n
  obtain ⟨c, cs, hcs⟩ := List.exists_cons_of_ne_nil (Number.digitsText_ne_nil n)
  rw [hcs] at hdigits hvalue ⊢
  obtain ⟨hc, hrest⟩ := List.forall_mem_cons.mp hdigits
  rw [natural?, decimalDigit?_of_isDigit hc, Option.bind_some, digitsWithBreaks?_digits hrest]
  rw [digitsValue, List.foldl_cons] at hvalue
  simpa using hvalue

theorem isIntegerBlank_of_mem {n : ℤ} {c : Char} (h : c ∈ integerChars n) :
    isIntegerBlank c = false := by
  rw [integerChars, List.mem_append] at h
  rcases h with h | h
  · split_ifs at h
    · obtain rfl := List.mem_singleton.mp h
      rfl
    · cases h
  · obtain ⟨hlow, hhigh⟩ := toNat_of_isDigit (Number.isDigit_of_mem_digitsText h)
    simp only [isIntegerBlank, isBlank, Bool.and_eq_false_iff, Bool.or_eq_false_iff,
      decide_eq_false_iff_not]
    omega

theorem limited?_digitsText (n : ℕ) :
    limited? (digitsText n) = if n < 10 ^ digitLimit then some n else none := by
  have hcount : (digitsText n).countP (· ≠ '_') = (digitsText n).length := by
    rw [List.countP_eq_length]
    intro c hc
    exact decide_eq_true (ne_of_isDigit (Number.isDigit_of_mem_digitsText hc) rfl)
  have hlength : (digitsText n).length ≤ digitLimit ↔ n < 10 ^ digitLimit :=
    Nat.length_toDigits_le_iff (by decide) (by decide)
  rw [limited?, hcount, natural?_digitsText]
  by_cases hn : n < 10 ^ digitLimit
  · rw [if_neg (not_lt.mpr (hlength.mpr hn)), if_pos hn]
  · rw [if_pos (not_le.mp (hlength.not.mpr hn)), if_neg hn]

/-- An integer is read back from its text exactly if its digits are not too many. -/
theorem integer?_integerText (n : ℤ) :
    integer? (integerText n) = if n.natAbs < 10 ^ digitLimit then some n else none := by
  have htrim : trimBy isIntegerBlank (integerChars n) = integerChars n :=
    trimBy_eq_self fun _ => isIntegerBlank_of_mem
  have hlimited := limited?_digitsText n.natAbs
  rw [integer?, integerText, String.toList_ofList, htrim, integerChars]
  by_cases hneg : n < 0
  · have hopposite : -Int.ofNat n.natAbs = n := by
      rw [Int.ofNat_eq_natCast]
      omega
    rw [if_pos hneg, List.singleton_append]
    simp only [hlimited]
    split_ifs
    · rw [Option.map_some, hopposite]
    · rfl
  · have hsame : Int.ofNat n.natAbs = n := by
      rw [Int.ofNat_eq_natCast]
      omega
    obtain ⟨c, cs, hcs, hc⟩ := Number.exists_digitsText_cons n.natAbs
    rw [if_neg hneg, List.nil_append]
    rw [hcs] at hlimited ⊢
    split
    · rename_i heq
      cases heq
      exact absurd rfl (ne_of_isDigit hc rfl)
    · rename_i heq
      cases heq
      exact absurd rfl (ne_of_isDigit hc rfl)
    · rw [hlimited]
      split_ifs
      · rw [Option.map_some, hsame]
      · rfl

end Text

/-! ## Integers among the arguments -/

theorem isUnsignedNumber_digitsText (n : ℕ) : isUnsignedNumber (digitsText n) = true := by
  have hdigits : ∀ c ∈ digitsText n, c.isDigit = true := fun _ => Number.isDigit_of_mem_digitsText
  have hend : (digitsText n).getLast? ≠ some '\n' := by
    intro h
    exact Text.ne_of_isDigit (hdigits _ (List.mem_of_getLast? h)) rfl rfl
  have hnone : (digitsText n).dropWhile (fun c => (Text.decimalDigit? c).isSome) = [] := by
    rw [List.dropWhile_eq_nil_iff]
    intro c hc
    rw [Text.decimalDigit?_of_isDigit (hdigits c hc)]
    rfl
  rw [isUnsignedNumber, if_neg hend]
  simp [hnone, Number.digitsText_ne_nil]

theorem integerText_ne_divider (n : ℤ) : integerText n ≠ "--" := by
  intro h
  have hchars : integerChars n = ['-', '-'] := by
    have htext := congrArg String.toList h
    rwa [integerText, String.toList_ofList] at htext
  have hdash : '-' ∈ digitsText n.natAbs := by
    rw [integerChars] at hchars
    split_ifs at hchars
    · rw [List.singleton_append] at hchars
      simp [(List.cons.inj hchars).2]
    · rw [List.nil_append] at hchars
      simp [hchars]
  exact absurd (Number.isDigit_of_mem_digitsText hdash) (by decide)

namespace Grammar

theorem roleOf_integerText {g : Grammar} (hg : g.Avoids Char.isDigit) (n : ℤ) :
    g.roleOf (integerText n) = .ok .operand := by
  have htext : (integerText n).toList =
      (if n < 0 then ['-'] else []) ++ digitsText n.natAbs := by
    rw [integerText, String.toList_ofList, integerChars]
  have hdigits : ∀ d ∈ digitsText n.natAbs, d.isDigit = true :=
    fun _ => Number.isDigit_of_mem_digitsText
  have hnumber := isUnsignedNumber_digitsText n.natAbs
  obtain ⟨c, cs, hcs, hc⟩ := Number.exists_digitsText_cons n.natAbs
  rw [hcs] at htext hdigits hnumber
  by_cases hneg : n < 0
  · rw [if_pos hneg, List.singleton_append] at htext
    rw [roleOf_of_avoids hg htext hdigits rfl (integerText_ne_divider n), hnumber]
    rfl
  · rw [if_neg hneg, List.nil_append] at htext
    apply roleOf_plain
    rw [IsPlainArgument, htext]
    exact fun h => Text.ne_of_isDigit hc rfl (Option.some.inj h)

theorem tokens_integerText {g : Grammar} (hg : g.Avoids Char.isDigit) (n : ℤ) :
    g.tokens [integerText n] = .ok [.plain (integerText n)] :=
  tokens_cons (integerText_ne_divider n) (roleOf_integerText hg n) rfl

end Grammar

namespace CommandLine

theorem valueOf_seedSwitch (seed : ℤ) :
    seedSwitch.valueOf (some (integerText seed)) =
      if seed.natAbs < 10 ^ Text.digitLimit then .ok (.integer seed)
      else .error (.notAnInteger seedSwitch (integerText seed)) := by
  simp only [seedSwitch, Switch.valueOf, if_neg (integerText_ne_divider seed),
    Text.integer?_integerText]
  split_ifs <;> rfl

theorem read_randomGrammar {out : String} (hout : IsPlainArgument out) (seed : ℤ) :
    randomGrammar.read [out, "--seed", integerText seed] =
      match seedSwitch.valueOf (some (integerText seed)) with
      | .ok value => .ok ⟨[("seed", value)], [[out]], []⟩
      | .error c => .error (.refused c) := by
  have hnames : randomGrammar.Avoids Char.isDigit := by
    simp [Grammar.Avoids, randomGrammar, commandGrammar, seedSwitch, Switch.helpSwitch,
      Char.isDigit]
  have htokens : randomGrammar.tokens [out, "--seed", integerText seed] =
      .ok [.plain out, ⟨"--seed", .switch (some ⟨seedSwitch, false, none⟩)⟩,
        .plain (integerText seed)] :=
    Grammar.tokens_cons hout.ne_divider (Grammar.roleOf_plain _ hout)
      (Grammar.tokens_cons (by decide) rfl (Grammar.tokens_integerText hnames seed))
  have htakes : seedSwitch.takes = .integer "SEED" := rfl
  have hlong : seedSwitch.long = "seed" := rfl
  rw [Grammar.read, htokens]
  cases hvalue : seedSwitch.valueOf (some (integerText seed)) <;>
    simp [Grammar.readFrom, Token.plain, randomGrammar, commandGrammar, takeOperands, Extent.take,
      takeDividers, List.span_eq_takeWhile_dropWhile, hout.ne_divider, hvalue, htakes, hlong,
      takeSwitch, takeAlone, valueAfter, act, Reading.withOperands, Reading.withUnknown,
      Reading.empty, Token.isSwitch]

/-- `random` is accepted with every seed whose digits are not too many. -/
theorem read_random {out : String} (hout : IsPlainArgument out) (seed : ℤ) :
    CommandLine.read ["random", out, "--seed", integerText seed] =
      if seed.natAbs < 10 ^ Text.digitLimit then .accepted ⟨false, .random out (.given seed)⟩
      else .refused randomGrammar (.notAnInteger seedSwitch (integerText seed)) := by
  have hnames : mainGrammar.Avoids Char.isDigit := by
    simp [Grammar.Avoids, mainGrammar, Switch.helpSwitch, Char.isDigit]
  have htokens : mainGrammar.tokens ["random", out, "--seed", integerText seed] =
      .ok [.plain "random", .plain out, ⟨"--seed", .switch none⟩, .plain (integerText seed)] :=
    Grammar.tokens_cons (by decide) rfl
      (Grammar.tokens_cons hout.ne_divider (Grammar.roleOf_plain _ hout)
        (Grammar.tokens_cons (by decide) rfl (Grammar.tokens_integerText hnames seed)))
  have hread : mainGrammar.read ["random", out, "--seed", integerText seed] =
      .ok ⟨[], [["random", out, "--seed", integerText seed]], []⟩ := by
    rw [Grammar.read, htokens]
    rfl
  have hcommand : command? "random" = some (randomGrammar, randomRequest) := rfl
  unfold CommandLine.read
  rw [hread]
  simp only [List.headD_cons, hcommand, List.tail_cons]
  rw [readCommand, read_randomGrammar hout, valueOf_seedSwitch]
  split_ifs <;> rfl

end CommandLine
end BracketTurtle
