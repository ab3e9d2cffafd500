import BracketTurtle.Proofs.RandomWords

/-!
# The shape of random words

Whatever a source gives, and whatever is asked for, a random word is balanced, keeps to its depth,
draws something, and is as long as asked for, its closing commands and the step of a word that would
draw nothing apart. So it can be written and read again, and no run on it misses a saved pen or has
one left.
-/

namespace BracketTurtle

namespace Word

theorem mem_symbols {w : Word} {ch : Char} (h : ch ∈ w.symbols) :
    ch ∈ ['F', 'R', 'X', '+', '-', '[', ']'] := by
  obtain ⟨cmd, _, rfl⟩ := List.mem_map.mp h
  cases cmd <;> decide

namespace NestsWithin

variable {w : Word} {bound opened : ℕ}

theorem balance_eq (h : w.NestsWithin bound opened) : w.balance = opened := by
  obtain ⟨depth, _, hw⟩ := h
  exact (of_nesting_eq_ok hw).1.unmatched.symm

theorem balance_of_prefix (h : w.NestsWithin bound opened) {u : Word} (hu : u <+: w) :
    0 ≤ u.balance ∧ u.balance ≤ bound := by
  obtain ⟨depth, hle, hw⟩ := h
  obtain ⟨hnesting, hnonneg⟩ := of_nesting_eq_ok hw
  constructor
  · rw [List.prefix_iff_eq_take.mp hu]
    exact hnonneg _
  · have hdepth : u.balance ≤ depth := hnesting.depth.2 ⟨u, hu, rfl⟩
    exact hdepth.trans (by exact_mod_cast hle)

theorem run (h : w.NestsWithin bound opened) (A : Arithmetic) (c : Course) (start : Pen) :
    (∀ f, (c.run A w start).fault = some f → f.cause ≠ .noSavedPen) ∧
      ((c.run A w start).fault = none → (c.run A w start).unmatched = opened) := by
  obtain ⟨depth, _, hw⟩ := h
  obtain ⟨hnesting, hnonneg⟩ := of_nesting_eq_ok hw
  constructor
  · intro f hf hcause
    obtain ⟨hunmatched, _⟩ := fault_noSavedPen_iff.mp ⟨f, hf, hcause, rfl⟩
    exact absurd hunmatched.more (not_lt.mpr (hnonneg _))
  · intro hfault
    exact (savedAfter_of_hasNesting hnesting hfault).2

end NestsWithin
end Word

namespace Random

section

variable {σ : Type} (S : Source σ) (shape : Shape) (g : σ)

theorem take_word :
    (word S shape g).1.take shape.length.toNat =
      (commands S shape shape.length.toNat [] 0 g).1.reverse := by
  have hlength : (commands S shape shape.length.toNat [] 0 g).1.reverse.length =
      shape.length.toNat := by
    rw [List.length_reverse, length_commands]
    rfl
  have hprefix : (commands S shape shape.length.toNat [] 0 g).1.reverse <+: (word S shape g).1 := by
    simp only [word, finish]
    split_ifs
    · exact List.prefix_append ..
    · rw [List.append_assoc]
      exact List.prefix_append ..
  rw [List.prefix_iff_eq_take.mp hprefix, hlength]

/-- The commands that finish a random word close the branches that are open, and one more draws if
nothing was drawn. -/
theorem length_word :
    let front : Word := (word S shape g).1.take shape.length.toNat
    ((word S shape g).1.length : ℤ) =
      shape.length.toNat + front.balance + if front.any Command.draws then 0 else 1 := by
  intro front
  set made := commands S shape shape.length.toNat [] 0 g
  have hfront : front = made.1.reverse := take_word S shape g
  have hnests : Word.NestsWithin made.1.reverse shape.depth.toNat made.2.1 :=
    nestsWithin_commands S shape _ (Word.nestsWithin_nil _)
  have hlength : made.1.length = shape.length.toNat := length_commands S shape _ [] 0 g
  have hword : (word S shape g).1 = finish made.1.reverse made.2.1 := rfl
  rw [hword, length_finish, List.length_reverse, hlength, hfront, hnests.balance_eq]
  push_cast
  rfl

end

/-- A random word is made of the seven symbols. None of its prefixes closes more branches than it
opens or opens more than the shape allows, and the whole word leaves none open. It draws something.
It is longer than was asked for by the branches that are open after so many commands, and by one if
none of these draws. So its text is read as the word again, and no run on it misses a saved pen or
has one left over. -/
theorem random_word_nests {σ : Type} (S : Source σ) (shape : Shape) (g : σ) :
    let w := (word S shape g).1
    let front : Word := w.take shape.length.toNat
    (∀ ch ∈ w.symbols, ch ∈ ['F', 'R', 'X', '+', '-', '[', ']']) ∧
    (∀ u : Word, u <+: w → 0 ≤ u.balance ∧ u.balance ≤ max shape.depth 0) ∧ w.balance = 0 ∧
    (∃ depth : ℕ, depth ≤ max shape.depth 0 ∧ w.nesting = .ok ⟨depth, 0⟩) ∧
    w.any Command.draws = true ∧
    (w.length : ℤ) =
      max shape.length 0 + front.balance + (if front.any Command.draws then 0 else 1) ∧
    Word.parse w.symbolsText = .ok w ∧
    ∀ (A : Arithmetic) (c : Course) (start : Pen),
      (∀ f, (c.run A w start).fault = some f → f.cause ≠ .noSavedPen) ∧
        ((c.run A w start).fault = none → (c.run A w start).unmatched = 0) := by
  intro w front
  have hnests : w.NestsWithin shape.depth.toNat 0 := nestsWithin_word S shape g
  obtain ⟨depth, hdepth, hnesting⟩ := id hnests
  refine ⟨fun ch => Word.mem_symbols, ?_, hnests.balance_eq, ⟨depth, ?_, hnesting⟩,
    any_draws_word S shape g, ?_, Word.parse_symbolsText (word_ne_nil S shape g), hnests.run⟩
  · intro u hu
    rw [← Int.ofNat_toNat]
    exact hnests.balance_of_prefix hu
  · rw [← Int.ofNat_toNat]
    exact_mod_cast hdepth
  · rw [← Int.ofNat_toNat]
    exact length_word S shape g

end Random
end BracketTurtle
