import BracketTurtle.Proofs.DoubleTexts

/-!
# Texts of JSON values

What is written for a value is read back as that value, whatever follows it, at any depth and in any
layout that puts nothing but blanks and a comma between the items. Strings come back character by
character, numbers as the numbers they were, and objects with their keys in order, as long as no key
stands twice. No half of a pair is ever written, so nothing hangs on what stands in for one.
-/

namespace BracketTurtle
namespace Json

open Number

variable {half : Char}

/-! ## Strings -/

theorem hexValue?_digitChar : ∀ d < 16, hexValue? (Nat.digitChar d) = some d := by decide

theorem hex_control : ∀ n < 0x20,
    Text.hex 4 n = ['0', '0', Nat.digitChar (n / 16), Nat.digitChar (n % 16)] := by decide

theorem code?_control {n : ℕ} (hn : n < 0x20) {rest : List Char} (hrest : rest ≠ []) :
    code? (Text.hex 4 n ++ rest) = some n := by
  obtain ⟨c, cs, rfl⟩ := List.exists_cons_of_ne_nil hrest
  have hzero : hexValue? '0' = some 0 := by decide
  have hhigh := hexValue?_digitChar (n / 16) (by omega)
  have hlow := hexValue?_digitChar (n % 16) (by omega)
  have hsum : ((0 * 16 + 0) * 16 + n / 16) * 16 + n % 16 = n := by omega
  rw [hex_control n hn]
  simp only [List.cons_append, List.nil_append, code?, hzero, hhigh, hlow, Option.bind_eq_bind,
    Option.bind_some, hsum]
  rfl

theorem stringBody_writeChar (opened read : List Char) (c : Char) {rest : List Char}
    (hrest : rest ≠ []) :
    stringBody half opened 0 read (writeChar c ++ rest) =
      stringBody half opened 0 (c :: read) rest := by
  unfold writeChar
  split
  · rfl
  · rfl
  · rfl
  · rfl
  · rfl
  · rfl
  · rfl
  rename_i hquote hbackslash _ _ _ _ _
  split
  · rename_i hcontrol
    have hcode := code?_control hcontrol hrest
    have hescape : escape half opened ('u' :: (Text.hex 4 c.toNat ++ rest)) = .ok (c, 5) := by
      have hhigh : ¬(0xd800 ≤ c.toNat ∧ c.toNat < 0xdc00) := by omega
      have hlow : ¬(0xdc00 ≤ c.toNat ∧ c.toNat < 0xe000) := by omega
      simp only [escape, hcode, if_neg hhigh, if_neg hlow, Char.ofNat_toNat]
    have hopen : ('\\' :: 'u' :: Text.hex 4 c.toNat) ++ rest =
        '\\' :: 'u' :: (Text.hex 4 c.toNat ++ rest) := rfl
    rw [hopen, stringBody, if_neg (by decide), if_pos rfl, hescape, hex_control _ hcontrol]
    rfl
  · rename_i hcontrol
    have hquote' : c ≠ '"' := fun h => hquote h
    have hbackslash' : c ≠ '\\' := fun h => hbackslash h
    rw [List.singleton_append, stringBody, if_neg hquote', if_neg hbackslash', if_neg hcontrol]

theorem stringBody_written (opened : List Char) (cs read rest : List Char) :
    stringBody half opened 0 read (cs.flatMap writeChar ++ '"' :: rest) =
      .ok (String.ofList (read.reverse ++ cs), rest) := by
  induction cs generalizing read with
  | nil => simp [stringBody]
  | cons c cs ih =>
    have hne : cs.flatMap writeChar ++ '"' :: rest ≠ [] := by simp
    rw [List.flatMap_cons, List.append_assoc, stringBody_writeChar opened read c hne, ih,
      List.reverse_cons, List.append_assoc, List.singleton_append]

/-! ## Layouts -/

/-- Only blanks stand around items, and a comma between two of them. -/
structure Layout.IsPlain (l : Layout) : Prop where
  before : ∀ depth, ∀ c ∈ l.before depth, isBlank c = true
  between : ∃ blanks, l.between = ',' :: blanks ∧ ∀ c ∈ blanks, isBlank c = true

theorem Layout.isPlain_spread : Layout.spread.IsPlain := by
  refine ⟨?_, [], rfl, by simp⟩
  intro depth c hc
  rcases List.mem_cons.mp hc with rfl | hc
  · rfl
  · rw [List.eq_of_mem_replicate hc]
    rfl

theorem skipBlanks_append {blanks : List Char} (h : ∀ c ∈ blanks, isBlank c = true)
    (rest : List Char) : skipBlanks (blanks ++ rest) = skipBlanks rest :=
  List.dropWhile_append_of_pos h

theorem skipBlanks_cons {c : Char} (h : isBlank c = false) (rest : List Char) :
    skipBlanks (c :: rest) = c :: rest :=
  List.dropWhile_cons_of_neg (by simp [h])

/-! ## Beginnings -/

def opensValue (c : Char) : Bool :=
  c.isDigit || ['"', '[', '\x7b', '-', 'n', 't', 'f', 'N', 'I'].contains c

theorem opensValue_eq_false :
    ∀ c ∈ [' ', '\t', '\n', '\r', ']', '\x7d', '\ufeff'], opensValue c = false := by
  simp [opensValue, Char.isDigit]

theorem opensValue_ne {c : Char} (h : opensValue c = true) :
    isBlank c = false ∧ c ≠ ']' ∧ c ≠ '\x7d' ∧ c ≠ '\ufeff' := by
  have hne : c ∉ [' ', '\t', '\n', '\r', ']', '\x7d', '\ufeff'] := by
    intro hmem
    rw [opensValue_eq_false c hmem] at h
    cases h
  simp only [List.mem_cons, List.not_mem_nil, or_false, not_or] at hne
  obtain ⟨hspace, htab, hfeed, hreturn, hrest⟩ := hne
  refine ⟨?_, hrest⟩
  simp [isBlank, hspace, htab, hfeed, hreturn]

def BeginsNumber (cs : List Char) : Prop :=
  ∃ c rest, c.isDigit = true ∧ (cs = c :: rest ∨ cs = '-' :: c :: rest)

theorem beginsNumber_signed (negative : Bool) {c : Char} (hc : c.isDigit = true)
    (rest : List Char) :
    BeginsNumber ((if negative then ['-'] else []) ++ c :: rest) := by
  cases negative with
  | false => exact ⟨c, rest, hc, .inl rfl⟩
  | true => exact ⟨c, rest, hc, .inr rfl⟩

theorem beginsNumber_integerChars (n : ℤ) : BeginsNumber (integerChars n) := by
  obtain ⟨c, rest, h, hc⟩ := exists_digitsText_cons n.natAbs
  have hbegins := beginsNumber_signed (decide (n < 0)) hc rest
  simp only [decide_eq_true_eq] at hbegins
  rwa [integerChars, h]

theorem exists_layout_cons (d : Decimal) : ∃ c rest, d.layout = c :: rest ∧ c.isDigit = true := by
  obtain ⟨c, rest, h, hc⟩ := exists_digitsText_cons d.digits
  unfold Decimal.layout
  simp only [h]
  split
  · exact ⟨c, _, rfl, hc⟩
  · split
    · exact ⟨'0', _, rfl, rfl⟩
    · rename_i hneg
      obtain ⟨k, hk⟩ : ∃ k, (d.leadingExponent + 1).toNat = k + 1 :=
        ⟨(d.leadingExponent).toNat, by omega⟩
      rw [hk]
      exact ⟨c, _, rfl, hc⟩

theorem beginsNumber_chars (negative : Bool) (a : Magnitude) :
    BeginsNumber (Exact.finite negative a).chars := by
  rw [Exact.chars, Magnitude.layout]
  by_cases hzero : a.mantissa = 0
  · rw [if_pos hzero]
    exact beginsNumber_signed negative (c := '0') rfl _
  · obtain ⟨c, rest, h, hc⟩ := exists_layout_cons a.shortest
    rw [if_neg hzero, h]
    exact beginsNumber_signed negative hc rest

theorem opensValue_of_isDigit {c : Char} (h : c.isDigit = true) : opensValue c = true := by
  simp [opensValue, h]

theorem BeginsNumber.exists_cons {cs : List Char} (h : BeginsNumber cs) :
    ∃ c rest, cs = c :: rest ∧ opensValue c = true := by
  obtain ⟨c, rest, hc, rfl | rfl⟩ := h
  · exact ⟨c, rest, rfl, opensValue_of_isDigit hc⟩
  · exact ⟨'-', c :: rest, rfl, rfl⟩

theorem word?_of_beginsNumber {cs : List Char} (h : BeginsNumber cs) : word? cs = none := by
  obtain ⟨c, rest, hc, h⟩ := h
  have hne : c ∉ ['n', 't', 'f', 'N', 'I', '-'] := by
    intro hmem
    have hletter : ∀ d ∈ ['n', 't', 'f', 'N', 'I', '-'], d.isDigit = false := by
      simp [Char.isDigit]
    rw [hletter c hmem] at hc
    cases hc
  simp only [List.mem_cons, List.not_mem_nil, or_false, not_or] at hne
  obtain ⟨hn, ht, hf, hN, hI, hsign⟩ := hne
  rcases h with rfl | rfl
  · simp [word?, Ne.symm hn, Ne.symm ht, Ne.symm hf, Ne.symm hN, Ne.symm hI, Ne.symm hsign]
  · simp [word?, Ne.symm hI]

theorem writeNumber_cases (x : Float) :
    (exact x = .notANumber ∧ writeNumber x = "NaN".toList) ∨
      (∃ negative, exact x = .infinite negative ∧
        writeNumber x = (if negative then ['-'] else []) ++ "Infinity".toList) ∨
      ∃ negative a, exact x = .finite negative a ∧ writeNumber x = (exact x).chars := by
  rw [writeNumber]
  cases hx : exact x with
  | notANumber => exact .inl ⟨rfl, rfl⟩
  | infinite negative => exact .inr (.inl ⟨negative, rfl, rfl⟩)
  | finite negative a => exact .inr (.inr ⟨negative, a, rfl, rfl⟩)

theorem exists_write_cons (l : Layout) (depth : ℕ) (v : Json) :
    ∃ c rest, write l depth v = c :: rest ∧ opensValue c = true := by
  cases v with
  | null => exact ⟨'n', _, rfl, rfl⟩
  | bool b => cases b <;> exact ⟨_, _, rfl, rfl⟩
  | integer n =>
    rw [write]
    exact (beginsNumber_integerChars n).exists_cons
  | number x =>
    rw [write]
    obtain ⟨_, h⟩ | ⟨negative, _, h⟩ | ⟨negative, a, hx, h⟩ := writeNumber_cases x
    · exact ⟨'N', _, h, rfl⟩
    · rw [h]
      cases negative <;> exact ⟨_, _, rfl, rfl⟩
    · rw [h, hx]
      exact (beginsNumber_chars negative a).exists_cons
  | string s => exact ⟨'"', _, by rw [write, writeString]; rfl, rfl⟩
  | array vs =>
    cases vs <;> rw [write] <;> exact ⟨'[', _, rfl, rfl⟩
  | object ms =>
    cases ms <;> rw [write] <;> exact ⟨'\x7b', _, rfl, rfl⟩

/-! ## What follows a value -/

def closesValue (c : Char) : Bool := isBlank c || [',', ']', '\x7d'].contains c

theorem endsNumber_of_closesValue {rest : List Char} (h : ∀ c ∈ rest.head?, closesValue c = true) :
    EndsNumber rest := by
  have hne {c d : Char} (hc : closesValue c = true) (hd : closesValue d = false) : c ≠ d := by
    rintro rfl
    rw [hc] at hd
    cases hd
  refine ⟨?_, ?_, ?_, ?_⟩
  · intro c hc
    have hclose := h c hc
    simp only [closesValue, isBlank, Bool.or_eq_true, decide_eq_true_eq, List.contains_eq_mem,
      List.mem_cons, List.not_mem_nil, or_false] at hclose
    rcases hclose with ((((rfl | rfl) | rfl) | rfl) | rfl | rfl | rfl) <;> rfl
  · exact fun hc => hne (h '.' hc) rfl rfl
  · exact fun hc => hne (h 'e' hc) rfl rfl
  · exact fun hc => hne (h 'E' hc) rfl rfl

theorem endsNumber_cons {c : Char} (hc : closesValue c = true) (rest : List Char) :
    EndsNumber (c :: rest) := by
  apply endsNumber_of_closesValue
  rintro d ⟨⟩
  exact hc

theorem endsNumber_blanks {blanks : List Char} (h : ∀ c ∈ blanks, isBlank c = true) {c : Char}
    (hc : closesValue c = true) (rest : List Char) : EndsNumber (blanks ++ c :: rest) := by
  cases blanks with
  | nil => exact endsNumber_cons hc rest
  | cons b blanks =>
    have hb : closesValue b = true := by simp [closesValue, h b List.mem_cons_self]
    exact endsNumber_cons hb _

/-! ## Values -/

/-- No key stands twice in an object, however deep it lies. -/
inductive HasDistinctKeys : Json → Prop
  | null : HasDistinctKeys .null
  | bool (b : Bool) : HasDistinctKeys (.bool b)
  | integer (n : ℤ) : HasDistinctKeys (.integer n)
  | number (x : Float) : HasDistinctKeys (.number x)
  | string (s : String) : HasDistinctKeys (.string s)
  | array {items : List Json} (h : ∀ v ∈ items, HasDistinctKeys v) : HasDistinctKeys (.array items)
  | object {members : List (String × Json)} (keys : (members.map Prod.fst).Nodup)
    (h : ∀ m ∈ members, HasDistinctKeys m.2) : HasDistinctKeys (.object members)

theorem HasDistinctKeys.singleton {key : String} {v : Json} (h : v.HasDistinctKeys) :
    HasDistinctKeys (.object [(key, v)]) :=
  .object (List.nodup_singleton _) (List.forall_mem_singleton.mpr h)

/-- The text of the value is read as the value, at any depth and whatever follows it. -/
def ReadsBack (half : Char) (l : Layout) (v : Json) : Prop :=
  ∀ depth rest fuel, EndsNumber rest → 2 * (write l depth v).length ≤ fuel →
    value half fuel (write l depth v ++ rest) = .ok (v, rest)

theorem value_scalar (fuel : ℕ) {cs : List Char} {found : Json × List Char}
    (hquote : cs.head? ≠ some '"') (hbrace : cs.head? ≠ some '\x7b')
    (hbracket : cs.head? ≠ some '[')
    (h : (word? cs <|> number? cs) = some found) : value half (fuel + 1) cs = .ok found := by
  unfold value
  split
  · exact absurd rfl hquote
  · exact absurd rfl hbrace
  · exact absurd rfl hbracket
  · rw [h]

theorem BeginsNumber.append {cs : List Char} (h : BeginsNumber cs) (rest : List Char) :
    BeginsNumber (cs ++ rest) := by
  obtain ⟨c, cs', hc, rfl | rfl⟩ := h
  · exact ⟨c, cs' ++ rest, hc, .inl rfl⟩
  · exact ⟨c, cs' ++ rest, hc, .inr rfl⟩

theorem BeginsNumber.head?_ne {cs : List Char} (h : BeginsNumber cs) {d : Char}
    (hd : d.isDigit = false) (hsign : d ≠ '-') : cs.head? ≠ some d := by
  obtain ⟨c, rest, hc, rfl | rfl⟩ := h
  · intro heq
    rw [Option.some.inj heq, hd] at hc
    cases hc
  · exact fun heq => hsign (Option.some.inj heq).symm

theorem value_of_beginsNumber (fuel : ℕ) {cs : List Char} (hbegins : BeginsNumber cs)
    {found : Json × List Char} (h : number? cs = some found) :
    value half (fuel + 1) cs = .ok found := by
  apply value_scalar fuel (hbegins.head?_ne rfl (by decide)) (hbegins.head?_ne rfl (by decide))
    (hbegins.head?_ne rfl (by decide))
  rw [word?_of_beginsNumber hbegins, h]
  rfl

theorem exists_fuel {fuel n : ℕ} (hn : 0 < n) (h : n ≤ fuel) : ∃ f, fuel = f + 1 :=
  ⟨fuel - 1, by omega⟩

theorem write_length_pos (l : Layout) (depth : ℕ) (v : Json) : 0 < (write l depth v).length := by
  obtain ⟨c, rest, h, _⟩ := exists_write_cons l depth v
  rw [h, List.length_cons]
  omega

theorem ReadsBack.of_succ {l : Layout} {v : Json}
    (h : ∀ depth rest f, EndsNumber rest → 2 * (write l depth v).length ≤ f + 1 →
      value half (f + 1) (write l depth v ++ rest) = .ok (v, rest)) : ReadsBack half l v := by
  intro depth rest fuel hrest hfuel
  have hpos := write_length_pos l depth v
  obtain ⟨f, rfl⟩ := exists_fuel (by omega) hfuel
  exact h depth rest f hrest hfuel

theorem readsBack_number (l : Layout) (x : Float) : ReadsBack half l (.number x) := by
  apply ReadsBack.of_succ
  intro depth rest f hrest _
  rw [write]
  obtain ⟨hx, h⟩ | ⟨negative, hx, h⟩ | ⟨negative, a, hx, h⟩ := writeNumber_cases x
  · have hdouble : (0.0 / 0.0 : Float) = x :=
      exact_injective ((by rfl : exact (0.0 / 0.0) = .notANumber).trans hx.symm)
    rw [h, ← hdouble]
    rfl
  · rw [h]
    cases negative with
    | false =>
      have hdouble : (1.0 / 0.0 : Float) = x :=
        exact_injective ((by rfl : exact (1.0 / 0.0) = .infinite false).trans hx.symm)
      rw [← hdouble]
      rfl
    | true =>
      have hdouble : (-1.0 / 0.0 : Float) = x :=
        exact_injective ((by rfl : exact (-1.0 / 0.0) = .infinite true).trans hx.symm)
      rw [← hdouble]
      rfl
  · rw [h]
    have hbegins := (beginsNumber_chars negative a).append rest
    rw [← hx] at hbegins
    exact value_of_beginsNumber f hbegins (number?_chars hx hrest)

theorem elements_written {l : Layout} (hl : l.IsPlain) {v : Json} {vs : List Json}
    (h : ∀ w ∈ v :: vs, ReadsBack half l w) (depth outer : ℕ) (read : List Json) (rest : List Char)
    (fuel : ℕ)
    (hfuel : 2 * ((write l depth v).length + (writeItems l depth vs).length) + 1 ≤ fuel) :
    elements half fuel read (write l depth v ++
        (writeItems l depth vs ++ (l.before outer ++ ']' :: rest))) =
      .ok (.array (read.reverse ++ v :: vs), rest) := by
  obtain ⟨f, rfl⟩ := exists_fuel (by omega) hfuel
  have hv := h v List.mem_cons_self
  induction vs generalizing v read f with
  | nil =>
    have hends := endsNumber_blanks (hl.before outer) (c := ']') rfl rest
    rw [writeItems, List.nil_append, elements, hv depth _ f hends (by omega)]
    simp only [skipBlanks_append (hl.before outer), skipBlanks_cons (c := ']') rfl,
      List.reverse_cons]
  | cons w vs ih =>
    obtain ⟨blanks, hbetween, hblanks⟩ := hl.between
    obtain ⟨c, cs, hw, hc⟩ := exists_write_cons l depth w
    have hpos := write_length_pos l depth v
    simp only [writeItems, hbetween, List.length_append, List.length_cons] at hfuel
    obtain ⟨f, rfl⟩ : ∃ f', f = f' + 1 := ⟨f - 1, by omega⟩
    have hread := ih (fun u hu => h u (List.mem_cons_of_mem v hu)) (v :: read) f (by omega)
      (h w (List.mem_cons_of_mem v List.mem_cons_self))
    simp only [writeItems, hbetween, List.append_assoc, List.cons_append]
    rw [elements, hv depth _ _ (endsNumber_cons rfl _) (by omega)]
    simp only [skipBlanks_cons (c := ',') rfl, skipBlanks_append hblanks,
      skipBlanks_append (hl.before depth)]
    rw [hw, List.cons_append, skipBlanks_cons (opensValue_ne hc).1, ← List.cons_append, ← hw, hread]
    simp

/-- One member, and after it the end of the object or the next member. -/
theorem members_cons {l : Layout} {m : String × Json} {read : List (String × Json)}
    {ms : List (String × Json)} (hkeys : ((read ++ m :: ms).map Prod.fst).Nodup)
    {rest : List Char} (hrest : EndsNumber rest) (hv : ReadsBack half l m.2) {depth fuel : ℕ}
    (hfuel : 2 * (write l depth m.2).length ≤ fuel) :
    let cs := writeString m.1 ++ [':', ' '] ++ write l depth m.2 ++ rest
    (∀ r, skipBlanks rest = '\x7d' :: r →
        members half (fuel + 1) read cs = .ok (.object (read ++ [m]), r)) ∧
      ∀ r, skipBlanks rest = ',' :: r →
        members half (fuel + 1) read cs = members half fuel (read ++ [m]) (skipBlanks r) := by
  obtain ⟨key, v⟩ := m
  have hnew : key ∉ read.map Prod.fst := by
    rw [List.map_append, List.map_cons] at hkeys
    exact fun hmem => List.disjoint_of_nodup_append hkeys hmem List.mem_cons_self
  have hput := Table.put_of_not_mem hnew v
  obtain ⟨c, cs, hw, hc⟩ := exists_write_cons l depth v
  have hspace : skipBlanks (' ' :: (write l depth v ++ rest)) = write l depth v ++ rest := by
    have hblank : ∀ c ∈ [' '], isBlank c = true := by simp [isBlank]
    rw [hw, List.cons_append]
    exact (skipBlanks_append hblank _).trans (skipBlanks_cons (opensValue_ne hc).1 _)
  have hopen : writeString key ++ [':', ' '] ++ write l depth v ++ rest =
      '"' :: (key.toList.flatMap writeChar ++
        '"' :: (':' :: ' ' :: (write l depth v ++ rest))) := by
    simp [writeString]
  simp only [hopen, members, stringBody_written, skipBlanks_cons (c := ':') rfl, hspace,
    hv depth rest fuel hrest hfuel, hput, List.reverse_nil, List.nil_append, String.ofList_toList]
  constructor
  · intro r hr
    simp only [hr]
  · intro r hr
    simp only [hr]

theorem members_written {l : Layout} (hl : l.IsPlain) {m : String × Json}
    {ms : List (String × Json)} (h : ∀ p ∈ m :: ms, ReadsBack half l p.2) (depth outer : ℕ)
    (read : List (String × Json)) (hkeys : ((read ++ m :: ms).map Prod.fst).Nodup)
    (rest : List Char) (fuel : ℕ)
    (hfuel : 2 * ((write l depth m.2).length + (writeMembers l depth ms).length) + 1 ≤ fuel) :
    members half fuel read (writeString m.1 ++ [':', ' '] ++ write l depth m.2 ++
        (writeMembers l depth ms ++ (l.before outer ++ '\x7d' :: rest))) =
      .ok (.object (read ++ m :: ms), rest) := by
  obtain ⟨f, rfl⟩ := exists_fuel (by omega) hfuel
  induction ms generalizing m read f with
  | nil =>
    have hends := endsNumber_blanks (hl.before outer) (c := '\x7d') rfl rest
    have hclose : skipBlanks (l.before outer ++ '\x7d' :: rest) = '\x7d' :: rest :=
      (skipBlanks_append (hl.before outer) _).trans (skipBlanks_cons (c := '\x7d') rfl _)
    rw [writeMembers, List.nil_append]
    exact (members_cons hkeys hends (h m List.mem_cons_self) (by omega)).1 rest hclose
  | cons p ms ih =>
    obtain ⟨blanks, hbetween, hblanks⟩ := hl.between
    have hpos := write_length_pos l depth m.2
    simp only [writeMembers, hbetween, List.length_append, List.length_cons] at hfuel
    obtain ⟨f, rfl⟩ : ∃ f', f = f' + 1 := ⟨f - 1, by omega⟩
    have hread := ih (fun q hq => h q (List.mem_cons_of_mem m hq)) (read ++ [m])
      (by simpa using hkeys) f (by omega)
    have hopen : writeMembers l depth (p :: ms) ++ (l.before outer ++ '\x7d' :: rest) =
        ',' :: (blanks ++ (l.before depth ++ (writeString p.1 ++ [':', ' '] ++
          write l depth p.2 ++
            (writeMembers l depth ms ++ (l.before outer ++ '\x7d' :: rest))))) := by
      simp [writeMembers, hbetween]
    have hquote : skipBlanks (writeString p.1 ++ [':', ' '] ++ write l depth p.2 ++
          (writeMembers l depth ms ++ (l.before outer ++ '\x7d' :: rest))) =
        writeString p.1 ++ [':', ' '] ++ write l depth p.2 ++
          (writeMembers l depth ms ++ (l.before outer ++ '\x7d' :: rest)) :=
      skipBlanks_cons (c := '"') rfl _
    rw [hopen, (members_cons hkeys (endsNumber_cons rfl _) (h m List.mem_cons_self) (by omega)).2
      _ (skipBlanks_cons (c := ',') rfl _)]
    simp only [skipBlanks_append hblanks, skipBlanks_append (hl.before depth), hquote, hread]
    rw [List.append_assoc, List.singleton_append]

theorem readsBack_string (l : Layout) (s : String) : ReadsBack half l (.string s) := by
  apply ReadsBack.of_succ
  intro depth rest f _ _
  have hopen : writeString s ++ rest = '"' :: (s.toList.flatMap writeChar ++ '"' :: rest) := by
    simp [writeString]
  rw [write, hopen, value, stringBody_written, List.reverse_nil, List.nil_append,
    String.ofList_toList]

section

variable {l : Layout} (hl : l.IsPlain)
include hl

theorem readsBack_array {items : List Json} (h : ∀ v ∈ items, ReadsBack half l v) :
    ReadsBack half l (.array items) := by
  apply ReadsBack.of_succ
  intro depth rest f _ hfuel
  cases items with
  | nil => rfl
  | cons v vs =>
    obtain ⟨c, cs, hw, hc⟩ := exists_write_cons l (depth + 1) v
    simp only [write, List.length_append, List.length_cons] at hfuel
    have hread := elements_written hl h (depth + 1) depth [] rest f (by omega)
    have hopen : write l depth (.array (v :: vs)) ++ rest =
        '[' :: (l.before (depth + 1) ++ (write l (depth + 1) v ++
          (writeItems l (depth + 1) vs ++ (l.before depth ++ ']' :: rest)))) := by
      simp [write]
    rw [hopen, value, skipBlanks_append (hl.before (depth + 1)), hw, List.cons_append,
      skipBlanks_cons (opensValue_ne hc).1]
    rw [hw] at hread
    split
    · rename_i r heq
      exact absurd (List.cons.inj heq).1 (opensValue_ne hc).2.1
    · exact hread

theorem readsBack_object {members : List (String × Json)} (hkeys : (members.map Prod.fst).Nodup)
    (h : ∀ m ∈ members, ReadsBack half l m.2) : ReadsBack half l (.object members) := by
  apply ReadsBack.of_succ
  intro depth rest f _ hfuel
  cases members with
  | nil => rfl
  | cons m ms =>
    simp only [write, List.length_append, List.length_cons] at hfuel
    have hread := members_written hl h (depth + 1) depth [] hkeys rest f (by omega)
    have hopen : write l depth (.object (m :: ms)) ++ rest =
        '\x7b' :: (l.before (depth + 1) ++ (writeString m.1 ++ [':', ' '] ++
          write l (depth + 1) m.2 ++
          (writeMembers l (depth + 1) ms ++ (l.before depth ++ '\x7d' :: rest)))) := by
      simp [write]
    have hquote : skipBlanks (writeString m.1 ++ [':', ' '] ++ write l (depth + 1) m.2 ++
          (writeMembers l (depth + 1) ms ++ (l.before depth ++ '\x7d' :: rest))) =
        writeString m.1 ++ [':', ' '] ++ write l (depth + 1) m.2 ++
          (writeMembers l (depth + 1) ms ++ (l.before depth ++ '\x7d' :: rest)) :=
      skipBlanks_cons (c := '"') rfl _
    rw [hopen, value, skipBlanks_append (hl.before (depth + 1)), hquote]
    exact hread

/-- Every value whose objects have each key once is read back. -/
theorem readsBack {v : Json} (hv : v.HasDistinctKeys) : ReadsBack half l v := by
  induction hv with
  | null => exact .of_succ fun _ _ _ _ _ => rfl
  | bool b => cases b <;> exact .of_succ fun _ _ _ _ _ => rfl
  | integer n =>
    apply ReadsBack.of_succ
    intro depth rest f hrest _
    rw [write]
    exact value_of_beginsNumber f ((beginsNumber_integerChars n).append rest)
      (number?_integerChars n hrest)
  | number x => exact readsBack_number l x
  | string s => exact readsBack_string l s
  | array _ ih => exact readsBack_array hl ih
  | object hkeys _ ih => exact readsBack_object hl hkeys ih

end

/-! ## Documents -/

theorem return_not_mem_writeNumber (x : Float) : '\r' ∉ writeNumber x := by
  obtain ⟨_, h⟩ | ⟨negative, _, h⟩ | ⟨negative, a, hx, h⟩ := writeNumber_cases x
  · rw [h]
    decide
  · rw [h]
    cases negative <;> decide
  · rw [h]
    exact not_mem_chars (by decide) (by decide) _

theorem return_not_mem_writeChar (c : Char) : '\r' ∉ writeChar c := by
  unfold writeChar
  split
  · simp
  · simp
  · simp
  · simp
  · simp
  · simp
  · simp
  rename_i hreturn _ _ _
  split
  · rename_i hcontrol
    have hdigit : ∀ d < 16, '\r' ≠ Nat.digitChar d := by decide
    have hhigh := hdigit (c.toNat / 16) (by omega)
    have hlow := hdigit (c.toNat % 16) (by omega)
    simp [hex_control _ hcontrol, hhigh, hlow]
  · simpa using fun h => hreturn h.symm

theorem return_not_mem_writeString (s : String) : '\r' ∉ writeString s := by
  simp [writeString, return_not_mem_writeChar]

mutual

theorem return_not_mem_write {l : Layout} (hbefore : ∀ depth, '\r' ∉ l.before depth)
    (hbetween : '\r' ∉ l.between) (depth : ℕ) : ∀ v, '\r' ∉ write l depth v
  | .null => by simp [write]
  | .bool b => by cases b <;> simp [write]
  | .integer n => by
    have hdigits : '\r' ∉ digitsText n.natAbs := not_mem_digitsText (by decide) _
    rw [write, integerChars]
    split_ifs <;> simp [hdigits]
  | .number x => by
    rw [write]
    exact return_not_mem_writeNumber x
  | .string s => by
    rw [write]
    exact return_not_mem_writeString s
  | .array [] => by simp [write]
  | .array (v :: vs) => by
    have hv := return_not_mem_write hbefore hbetween (depth + 1) v
    have hvs := return_not_mem_writeItems hbefore hbetween (depth + 1) vs
    simp [write, hbefore, hv, hvs]
  | .object [] => by simp [write]
  | .object ((k, v) :: ms) => by
    have hk := return_not_mem_writeString k
    have hv := return_not_mem_write hbefore hbetween (depth + 1) v
    have hms := return_not_mem_writeMembers hbefore hbetween (depth + 1) ms
    simp [write, hbefore, hk, hv, hms]

theorem return_not_mem_writeItems {l : Layout} (hbefore : ∀ depth, '\r' ∉ l.before depth)
    (hbetween : '\r' ∉ l.between) (depth : ℕ) : ∀ vs, '\r' ∉ writeItems l depth vs
  | [] => by simp [writeItems]
  | v :: vs => by
    have hv := return_not_mem_write hbefore hbetween depth v
    have hvs := return_not_mem_writeItems hbefore hbetween depth vs
    simp [writeItems, hbefore, hbetween, hv, hvs]

theorem return_not_mem_writeMembers {l : Layout} (hbefore : ∀ depth, '\r' ∉ l.before depth)
    (hbetween : '\r' ∉ l.between) (depth : ℕ) : ∀ ms, '\r' ∉ writeMembers l depth ms
  | [] => by simp [writeMembers]
  | (k, v) :: ms => by
    have hk := return_not_mem_writeString k
    have hv := return_not_mem_write hbefore hbetween depth v
    have hms := return_not_mem_writeMembers hbefore hbetween depth ms
    simp [writeMembers, hbefore, hbetween, hk, hv, hms]

end

theorem return_not_mem_fileChars (v : Json) : '\r' ∉ v.fileChars := by
  have hwrite : '\r' ∉ write .spread 0 v :=
    return_not_mem_write (by simp [Layout.spread]) (by simp [Layout.spread]) 0 v
  simp [fileChars, hwrite]

/-- The text of a file that holds the value is read as the value. -/
theorem readWith_fileChars (half : Char) {v : Json} (hv : v.HasDistinctKeys) :
    readWith half v.fileChars = .ok v := by
  obtain ⟨c, cs, hw, hc⟩ := exists_write_cons .spread 0 v
  obtain ⟨hblank, -, -, hmark⟩ := opensValue_ne hc
  have hopen : v.fileChars = c :: (cs ++ ['\n']) := by rw [fileChars, hw, List.cons_append]
  have hvalue :
      value half (2 * v.fileChars.length + 2) (skipBlanks v.fileChars) = .ok (v, ['\n']) := by
    have hskip : skipBlanks v.fileChars = v.fileChars := by rw [hopen, skipBlanks_cons hblank]
    rw [hskip]
    apply readsBack Layout.isPlain_spread hv 0 ['\n'] _ (endsNumber_cons rfl [])
    rw [fileChars, List.length_append]
    omega
  have hhead : v.fileChars.head? ≠ some '\ufeff' := by
    rw [hopen]
    exact fun h => hmark (Option.some.inj h)
  have hdocument : document half v.fileChars = .ok v := by
    rw [document, if_neg hhead, hvalue]
    rfl
  rw [readWith, hdocument]

/-! ## Keys of what was read -/

theorem nodup_put {α : Type} (key : String) (a : α) {t : Registry α}
    (h : (t.map Prod.fst).Nodup) : ((t.put key a).map Prod.fst).Nodup := by
  rw [Table.map_fst_put]
  split_ifs with hmem
  · exact h
  · rw [← List.concat_eq_append]
    exact h.concat hmem

theorem hasDistinctKeys_of_word? {cs rest : List Char} {v : Json} (h : word? cs = some (v, rest)) :
    v.HasDistinctKeys := by
  obtain ⟨w, hw, hfound⟩ := List.exists_of_findSome?_eq_some h
  split at hfound
  · cases hfound
    simp only [List.mem_cons, List.not_mem_nil, or_false] at hw
    obtain rfl | rfl | rfl | rfl | rfl | rfl := hw
    · exact .null
    · exact .bool true
    · exact .bool false
    · exact .number _
    · exact .number _
    · exact .number _
  · cases hfound

theorem hasDistinctKeys_of_number? {cs rest : List Char} {v : Json}
    (h : number? cs = some (v, rest)) : v.HasDistinctKeys := by
  unfold number? at h
  split at h
  simp only at h
  split at h
  · cases h
  · split at h
    · cases h
      exact .number _
    · split at h
      · cases h
        exact .integer _
      · cases h
        exact .number _

/-- All that the reader finds with this fuel has each key once, if what it has read before does. -/
structure FindsDistinctKeys (half : Char) (fuel : ℕ) : Prop where
  value : ∀ {cs v rest}, value half fuel cs = .ok (v, rest) → v.HasDistinctKeys
  elements : ∀ read {cs v rest}, (∀ u ∈ read, HasDistinctKeys u) →
    elements half fuel read cs = .ok (v, rest) → v.HasDistinctKeys
  members : ∀ read {cs v rest}, (read.map Prod.fst).Nodup → (∀ m ∈ read, HasDistinctKeys m.2) →
    members half fuel read cs = .ok (v, rest) → v.HasDistinctKeys

namespace FindsDistinctKeys

theorem zero : FindsDistinctKeys half 0 := ⟨nofun, fun _ => nofun, fun _ => nofun⟩

variable {fuel : ℕ} (hfuel : FindsDistinctKeys half fuel) {cs rest : List Char} {v : Json}
include hfuel

theorem value_succ (h : Json.value half (fuel + 1) cs = .ok (v, rest)) : v.HasDistinctKeys := by
  rw [Json.value.eq_def] at h
  simp only at h
  split at h
  · split at h
    · cases h
    · cases h
      exact .string _
  · split at h
    · cases h
      exact .object List.nodup_nil (by simp)
    · exact hfuel.members [] List.nodup_nil (by simp) h
  · split at h
    · cases h
      exact .array (by simp)
    · exact hfuel.elements [] (by simp) h
  · split at h
    · rename_i found hfound
      cases h
      cases hword : word? cs with
      | some found =>
        rw [hword] at hfound
        cases hfound
        exact hasDistinctKeys_of_word? hword
      | none =>
        rw [hword] at hfound
        exact hasDistinctKeys_of_number? hfound
    · cases h

theorem elements_succ (read : List Json) (hread : ∀ u ∈ read, HasDistinctKeys u)
    (h : Json.elements half (fuel + 1) read cs = .ok (v, rest)) : v.HasDistinctKeys := by
  rw [Json.elements.eq_def] at h
  simp only at h
  split at h
  · cases h
  · rename_i u r hu
    have hall : ∀ w ∈ u :: read, HasDistinctKeys w :=
      List.forall_mem_cons.mpr ⟨hfuel.value hu, hread⟩
    split at h
    · cases h
      exact .array fun w hw => hall w (List.mem_reverse.mp hw)
    · exact hfuel.elements _ hall h
    · cases h

theorem members_succ (read : List (String × Json)) (hkeys : (read.map Prod.fst).Nodup)
    (hread : ∀ m ∈ read, HasDistinctKeys m.2)
    (h : Json.members half (fuel + 1) read cs = .ok (v, rest)) : v.HasDistinctKeys := by
  rw [Json.members.eq_def] at h
  simp only at h
  split at h
  · split at h
    · cases h
    · rename_i key r _
      split at h
      · split at h
        · cases h
        · rename_i u r hu
          have hkeys' := nodup_put key u hkeys
          have hall := Table.forall_mem_put (P := HasDistinctKeys) key (hfuel.value hu) hread
          split at h
          · cases h
            exact .object hkeys' hall
          · exact hfuel.members _ hkeys' hall h
          · cases h
      · cases h
  · cases h

end FindsDistinctKeys

theorem findsDistinctKeys (half : Char) (fuel : ℕ) : FindsDistinctKeys half fuel := by
  induction fuel with
  | zero => exact .zero
  | succ fuel ih =>
    exact ⟨ih.value_succ, fun read => ih.elements_succ read, fun read => ih.members_succ read⟩

theorem hasDistinctKeys_of_readWith {text : List Char} {v : Json}
    (h : readWith half text = .ok v) : v.HasDistinctKeys := by
  unfold readWith at h
  split at h
  · cases h
  · rename_i u hdocument
    cases h
    unfold document at hdocument
    split at hdocument
    · cases hdocument
    · split at hdocument
      · cases hdocument
      · rename_i w r hvalue
        split at hdocument
        · cases hdocument
          exact (findsDistinctKeys half _).value hvalue
        · cases hdocument

end Json
end BracketTurtle
