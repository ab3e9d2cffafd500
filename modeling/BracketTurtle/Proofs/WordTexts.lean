import BracketTurtle.Word
import Mathlib.Data.List.TakeWhile
import Mathlib.Tactic

/-!
# Words as texts

A text is read as a word exactly if the symbols of the word, of which there is at least one, are
what is left of it without the blanks around them.
-/

namespace BracketTurtle

namespace Text

variable (p : Char → Bool) (cs : List Char)

theorem exists_trimRightBy : ∃ back, cs = trimRightBy p cs ++ back ∧ ∀ c ∈ back, p c = true := by
  refine ⟨(cs.reverse.takeWhile p).reverse, ?_, ?_⟩
  · rw [trimRightBy, ← List.reverse_append, List.takeWhile_append_dropWhile, List.reverse_reverse]
  · intro c hc
    exact List.mem_takeWhile_imp (List.mem_reverse.mp hc)

/-- Only characters to be left out are taken off, in front and at the end. -/
theorem exists_trimBy :
    ∃ front back, cs = front ++ (trimBy p cs ++ back) ∧ (∀ c ∈ front, p c = true) ∧
      ∀ c ∈ back, p c = true := by
  obtain ⟨back, hsplit, hback⟩ := exists_trimRightBy p (cs.dropWhile p)
  refine ⟨cs.takeWhile p, back, ?_, fun c hc => List.mem_takeWhile_imp hc, hback⟩
  rw [trimBy, ← hsplit, List.takeWhile_append_dropWhile]

variable {p cs} in
theorem trimBy_eq_self (h : ∀ c ∈ cs, p c = false) : trimBy p cs = cs := by
  have hkept {ds : List Char} (hds : ∀ c ∈ ds, p c = false) : ds.dropWhile p = ds := by
    rw [List.dropWhile_eq_self_iff]
    intro hlength
    simp [hds _ (List.getElem_mem hlength)]
  rw [trimBy, trimRightBy, hkept h, hkept fun c hc => h c (List.mem_reverse.mp hc),
    List.reverse_reverse]

end Text

namespace Word

theorem firstUnknown?_eq_none_iff {offset : ℕ} {cs : List Char} :
    firstUnknown? offset cs = none ↔ ∀ c ∈ cs, (Command.ofChar? c).isSome = true := by
  rw [firstUnknown?, List.find?_eq_none]
  conv_rhs => rw [← List.zipIdx_map_fst offset cs, List.forall_mem_map]
  simp [Option.isSome_iff_ne_none]

theorem isSome_of_mem_symbols {w : Word} {ch : Char} (h : ch ∈ w.symbols) :
    (Command.ofChar? ch).isSome = true := by
  obtain ⟨cmd, _, rfl⟩ := List.mem_map.mp h
  rw [Command.ofChar?_symbol]
  rfl

theorem symbols_filterMap {cs : List Char} (h : ∀ c ∈ cs, (Command.ofChar? c).isSome = true) :
    symbols (cs.filterMap Command.ofChar?) = cs := by
  induction cs with
  | nil => rfl
  | cons c cs ih =>
    obtain ⟨hc, hcs⟩ := List.forall_mem_cons.mp h
    obtain ⟨cmd, hcmd⟩ := Option.isSome_iff_exists.mp hc
    rw [List.filterMap_cons_some hcmd, symbols, List.map_cons, Command.ofChar?_eq_some_iff.mp hcmd]
    exact congrArg (c :: ·) (ih hcs)

theorem ofChars_eq_ok_iff {cs : List Char} {w : Word} :
    ofChars cs = .ok w ↔ w ≠ [] ∧ Text.trim cs = w.symbols := by
  simp only [ofChars]
  generalize Text.trim cs = body
  constructor
  · intro h
    split at h
    · cases h
    · rename_i hbody
      split at h
      · cases h
      · rename_i hknown
        cases h
        have hsymbols := symbols_filterMap (firstUnknown?_eq_none_iff.mp hknown)
        refine ⟨?_, hsymbols.symm⟩
        intro hnil
        rw [hnil] at hsymbols
        rw [← hsymbols] at hbody
        exact hbody rfl
  · rintro ⟨hw, rfl⟩
    have hbody : w.symbols.isEmpty = false := by
      rw [List.isEmpty_eq_false_iff]
      exact List.map_eq_nil_iff.not.mpr hw
    have hknown : firstUnknown? (Text.leadingBlanks cs) w.symbols = none :=
      firstUnknown?_eq_none_iff.mpr fun _ => isSome_of_mem_symbols
    simp only [hbody, hknown, filterMap_ofChar?_symbols, Bool.false_eq_true, if_false]

theorem isBlank_of_mem_symbols {w : Word} {ch : Char} (h : ch ∈ w.symbols) :
    Text.isBlank ch = false := by
  obtain ⟨cmd, _, rfl⟩ := List.mem_map.mp h
  cases cmd <;> rfl

theorem trim_symbols (w : Word) : Text.trim w.symbols = w.symbols :=
  Text.trimBy_eq_self fun _ => isBlank_of_mem_symbols

/-- A word is read back from its symbols. -/
theorem parse_symbolsText {w : Word} (hw : w ≠ []) : parse w.symbolsText = .ok w := by
  rw [parse, symbolsText, String.toList_ofList, ofChars_eq_ok_iff]
  exact ⟨hw, trim_symbols w⟩

/-- A character that words are written with: a symbol, or a blank around them. -/
def isCharacter (ch : Char) : Bool := Text.isBlank ch || (Command.ofChar? ch).isSome

theorem isCharacter_of_parse {text : String} {w : Word} (h : parse text = .ok w) :
    ∀ ch ∈ text.toList, isCharacter ch = true := by
  obtain ⟨_, hbody⟩ := ofChars_eq_ok_iff.mp h
  obtain ⟨front, back, hsplit, hfront, hback⟩ := Text.exists_trimBy Text.isBlank text.toList
  have htrim : Text.trimBy Text.isBlank text.toList = w.symbols := hbody
  intro ch hch
  rw [isCharacter, Bool.or_eq_true]
  rw [hsplit, htrim, List.mem_append, List.mem_append] at hch
  rcases hch with hch | hch | hch
  · exact .inl (hfront ch hch)
  · exact .inr (isSome_of_mem_symbols hch)
  · exact .inl (hback ch hch)

end Word
end BracketTurtle
