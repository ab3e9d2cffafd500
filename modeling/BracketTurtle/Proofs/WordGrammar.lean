import BracketTurtle.Proofs.WordTexts

/-!
# The grammar of words

A text is a word exactly if symbols, and at least one, are all that stands between the blanks in
front and those at the end. A text of blanks is refused as empty, any other for the first character
that is no symbol where symbols should stand, with its position in the whole text.
-/

namespace BracketTurtle

namespace Text

/-- A text is a body between blanks that neither starts nor ends with one. -/
structure IsTrim (cs front body back : List Char) : Prop where
  split : cs = front ++ (body ++ back)
  front : ∀ c ∈ front, isBlank c = true
  back : ∀ c ∈ back, isBlank c = true
  head : ∀ c ∈ body.head?, isBlank c = false
  last : ∀ c ∈ body.getLast?, isBlank c = false

theorem eq_false_of_mem_head?_dropWhile {p : Char → Bool} {cs : List Char} {c : Char}
    (h : c ∈ (cs.dropWhile p).head?) : p c = false := by
  have hnot := List.head?_dropWhile_not p cs
  rw [h] at hnot
  exact hnot

theorem isTrim_trim (cs : List Char) :
    ∃ back, IsTrim cs (cs.takeWhile isBlank) (trim cs) back := by
  obtain ⟨back, hsplit, hback⟩ := exists_trimRightBy isBlank (cs.dropWhile isBlank)
  refine ⟨back, ?_, fun c hc => List.mem_takeWhile_imp hc, hback, ?_, ?_⟩
  · rw [trim, trimBy, ← hsplit, List.takeWhile_append_dropWhile]
  · intro c hc
    have hhead : (trimRightBy isBlank (cs.dropWhile isBlank)).head? = some c := hc
    apply eq_false_of_mem_head?_dropWhile
    rw [hsplit, List.head?_append, hhead]
    rfl
  · intro c hc
    rw [trim, trimBy, trimRightBy, List.getLast?_reverse] at hc
    exact eq_false_of_mem_head?_dropWhile hc

theorem dropWhile_of_head? {p : Char → Bool} {cs : List Char} (h : ∀ c ∈ cs.head?, p c = false) :
    cs.dropWhile p = cs := by
  cases cs with
  | nil => rfl
  | cons c cs => rw [List.dropWhile_cons, h c rfl, if_neg Bool.false_ne_true]

namespace IsTrim

variable {cs front body back : List Char} (h : IsTrim cs front body back)
include h

theorem trim_eq : trim cs = body := by
  have hbody : trimRightBy isBlank (body ++ back) = body := by
    have hlast : ∀ c ∈ body.reverse.head?, isBlank c = false := by
      rw [List.head?_reverse]
      exact h.last
    rw [trimRightBy, List.reverse_append,
      List.dropWhile_append_of_pos fun c hc => h.back c (List.mem_reverse.mp hc),
      dropWhile_of_head? hlast, List.reverse_reverse]
  rw [trim, trimBy, h.split, List.dropWhile_append_of_pos h.front]
  cases body with
  | nil =>
    -- What is at the end is taken off from the front already.
    rw [List.nil_append, List.dropWhile_eq_nil_iff.mpr h.back]
    rfl
  | cons c body =>
    have hhead : ∀ b ∈ (c :: body ++ back).head?, isBlank b = false := h.head
    rw [dropWhile_of_head? hhead, hbody]

theorem leadingBlanks_eq (hbody : body ≠ []) : leadingBlanks cs = front.length := by
  obtain ⟨c, body, rfl⟩ := List.exists_cons_of_ne_nil hbody
  rw [leadingBlanks, h.split, List.takeWhile_append_of_pos h.front, List.cons_append,
    List.takeWhile_cons, h.head c rfl, if_neg Bool.false_ne_true, List.append_nil]

theorem getElem?_add {i : ℕ} (hi : i < body.length) : cs[front.length + i]? = body[i]? := by
  rw [h.split, List.getElem?_append_right (Nat.le_add_right _ _), Nat.add_sub_cancel_left,
    List.getElem?_append_left hi]

end IsTrim

end Text

namespace Command

def alphabet : List Char := ['F', 'R', 'X', '+', '-', '[', ']']

theorem isSome_ofChar?_iff {c : Char} : (ofChar? c).isSome = true ↔ c ∈ alphabet := by
  have hsymbols : alphabet = all.map symbol := rfl
  rw [ofChar?, List.find?_isSome, hsymbols, List.mem_map]
  simp

end Command

namespace Word

/-- The first character from the start on and before the stop that is no symbol. -/
structure IsFirstUnknown (cs : List Char) (start stop : ℕ) (c : Char) (i : ℕ) : Prop where
  start_le : start ≤ i
  lt_stop : i < stop
  holds : cs[i]? = some c
  unknown : c ∉ Command.alphabet
  known : ∀ j b, start ≤ j → j < i → cs[j]? = some b → b ∈ Command.alphabet

theorem firstUnknown?_eq_some {offset i : ℕ} {cs : List Char} {c : Char}
    (h : firstUnknown? offset cs = some (c, i)) :
    ∃ k, i = offset + k ∧ IsFirstUnknown cs 0 cs.length c k := by
  rw [firstUnknown?, List.find?_eq_some_iff_getElem] at h
  obtain ⟨hunknown, k, hk, hget, hbefore⟩ := h
  have hlength : k < cs.length := by rwa [List.length_zipIdx] at hk
  rw [List.getElem_zipIdx, Prod.mk.injEq] at hget
  obtain ⟨hc, rfl⟩ := hget
  refine ⟨k, rfl, Nat.zero_le k, hlength, List.getElem?_eq_some_iff.mpr ⟨hlength, hc⟩, ?_, ?_⟩
  · rw [← Command.isSome_ofChar?_iff, Option.isSome_iff_ne_none, not_not]
    exact Option.isNone_iff_eq_none.mp hunknown
  · intro j b _ hj hb
    obtain ⟨_, hb'⟩ := List.getElem?_eq_some_iff.mp hb
    have hknown := hbefore j hj
    rw [List.getElem_zipIdx, Bool.not_eq_true', Option.isNone_eq_false_iff, hb'] at hknown
    exact Command.isSome_ofChar?_iff.mp hknown

theorem IsFirstUnknown.add {cs front body back : List Char} (h : Text.IsTrim cs front body back)
    {c : Char} {k : ℕ} (hk : IsFirstUnknown body 0 body.length c k) :
    IsFirstUnknown cs front.length (front.length + body.length) c (front.length + k) where
  start_le := Nat.le_add_right _ _
  lt_stop := Nat.add_lt_add_left hk.lt_stop _
  holds := (h.getElem?_add hk.lt_stop).trans hk.holds
  unknown := hk.unknown
  known := by
    intro j b hstart hj hb
    obtain ⟨m, rfl⟩ := Nat.exists_eq_add_of_le hstart
    have hm : m < k := Nat.lt_of_add_lt_add_left hj
    rw [h.getElem?_add (hm.trans hk.lt_stop)] at hb
    exact hk.known m b (Nat.zero_le m) hm hb

section

variable {text : String} {front body back : List Char}
  (h : Text.IsTrim text.toList front body back)
include h

theorem parse_eq_ok_iff {w : Word} : parse text = .ok w ↔ w ≠ [] ∧ w.symbols = body := by
  rw [parse, ofChars_eq_ok_iff, h.trim_eq, eq_comm (a := body)]

theorem parse_of_nil (hbody : body = []) : parse text = .error .empty := by
  rw [parse, ofChars, h.trim_eq, hbody]
  rfl

theorem exists_parse_iff :
    (∃ w, parse text = .ok w) ↔ body ≠ [] ∧ ∀ c ∈ body, c ∈ Command.alphabet := by
  constructor
  · rintro ⟨w, hw⟩
    obtain ⟨hne, rfl⟩ := (parse_eq_ok_iff h).mp hw
    refine ⟨fun hnil => hne (List.map_eq_nil_iff.mp hnil), fun c hc => ?_⟩
    exact Command.isSome_ofChar?_iff.mp (isSome_of_mem_symbols hc)
  · rintro ⟨hne, hall⟩
    have hsymbols := symbols_filterMap fun c hc => Command.isSome_ofChar?_iff.mpr (hall c hc)
    refine ⟨_, (parse_eq_ok_iff h).mpr ⟨?_, hsymbols⟩⟩
    intro hnil
    rw [hnil] at hsymbols
    exact hne hsymbols.symm

theorem parse_of_unknown (hbody : body ≠ []) (hunknown : ∃ c ∈ body, c ∉ Command.alphabet) :
    ∃ c i, parse text = .error (.unknownSymbol (.string (String.singleton c)) (i : ℕ)) ∧
      IsFirstUnknown text.toList front.length (front.length + body.length) c i := by
  cases hfirst : firstUnknown? front.length body with
  | none =>
    obtain ⟨c, hc, hnot⟩ := hunknown
    exact absurd (Command.isSome_ofChar?_iff.mp (firstUnknown?_eq_none_iff.mp hfirst c hc)) hnot
  | some p =>
    obtain ⟨c, i⟩ := p
    obtain ⟨k, rfl, hk⟩ := firstUnknown?_eq_some hfirst
    refine ⟨c, front.length + k, ?_, hk.add h⟩
    have hnonempty : body.isEmpty = false := List.isEmpty_eq_false_iff.mpr hbody
    simp only [parse, ofChars, h.trim_eq, h.leadingBlanks_eq hbody, hnonempty, hfirst,
      Bool.false_eq_true, if_false]

end

theorem isTrim_symbols {w : Word} {front back : List Char}
    (hfront : ∀ c ∈ front, Text.isBlank c = true) (hback : ∀ c ∈ back, Text.isBlank c = true) :
    Text.IsTrim (front ++ (w.symbols ++ back)) front w.symbols back where
  split := rfl
  front := hfront
  back := hback
  head _ hc := isBlank_of_mem_symbols (List.mem_of_mem_head? hc)
  last _ hc := isBlank_of_mem_symbols (List.mem_of_mem_getLast? hc)

/-- The texts that are words, and how the others are refused. Every text is a body between blanks.
It is a word exactly if the body is not empty and consists of symbols, which are then the symbols of
the word, one for each command. Without a body a text is refused as empty; with another character in
the body it is refused for the first of them and its position in the text. Every word that is not
empty is read back from its symbols with any blanks around them. -/
theorem parse_grammar :
    (∀ text : String,
      (∃ front body back, Text.IsTrim text.toList front body back) ∧
      ∀ front body back, Text.IsTrim text.toList front body back →
        ((∃ w, parse text = .ok w) ↔ body ≠ [] ∧ ∀ c ∈ body, c ∈ Command.alphabet) ∧
        (∀ w, parse text = .ok w →
          w.symbolsText = String.ofList body ∧ w.length = body.length) ∧
        (body = [] → parse text = .error .empty) ∧
        (body ≠ [] → (∃ c ∈ body, c ∉ Command.alphabet) →
          ∃ c i, parse text = .error (.unknownSymbol (.string (String.singleton c)) (i : ℕ)) ∧
            IsFirstUnknown text.toList front.length (front.length + body.length) c i)) ∧
    ∀ (w : Word) (before after : String), w ≠ [] →
      (∀ c ∈ before.toList, Text.isBlank c = true) →
      (∀ c ∈ after.toList, Text.isBlank c = true) →
        parse (before ++ w.symbolsText ++ after) = .ok w := by
  refine ⟨fun text => ⟨⟨_, _, Text.isTrim_trim text.toList⟩, ?_⟩, ?_⟩
  · intro front body back h
    refine ⟨exists_parse_iff h, fun w hw => ?_, parse_of_nil h, parse_of_unknown h⟩
    obtain ⟨_, rfl⟩ := (parse_eq_ok_iff h).mp hw
    exact ⟨rfl, (List.length_map _).symm⟩
  · intro w before after hw hbefore hafter
    have htrim : Text.IsTrim (before ++ w.symbolsText ++ after).toList before.toList w.symbols
        after.toList := by
      rw [String.toList_append, String.toList_append, symbolsText, String.toList_ofList,
        List.append_assoc]
      exact isTrim_symbols hbefore hafter
    exact (parse_eq_ok_iff htrim).mpr ⟨hw, rfl⟩

theorem parse_grammar_spaced :
    ("\t ".toList.all Text.isBlank && "\n".toList.all Text.isBlank) = true ∧
      parse ("\t " ++ symbolsText [.forward, .right, .pop] ++ "\n") =
        .ok [.forward, .right, .pop] := by
  have hblank : ("\t ".toList.all Text.isBlank && "\n".toList.all Text.isBlank) = true := by decide
  obtain ⟨hbefore, hafter⟩ := Bool.and_eq_true_iff.mp hblank
  exact ⟨hblank, parse_grammar.2 [.forward, .right, .pop] "\t " "\n" (by decide)
    (List.all_eq_true.mp hbefore) (List.all_eq_true.mp hafter)⟩

end Word
end BracketTurtle
