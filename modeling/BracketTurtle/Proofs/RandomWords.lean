import BracketTurtle.Proofs.Depths
import BracketTurtle.Proofs.WordTexts
import BracketTurtle.Random.Word

/-!
# Random words

Whatever numbers a source gives, the word made of them closes only branches that are open, keeps to
the depth it is allowed, has all branches closed at its end and draws something. The depth that the
maker of the word counts is the number of branches that are open in it.
-/

namespace BracketTurtle

namespace Word

/-- No branch is closed that is not open, none is deeper than the bound, and so many stay open. -/
def NestsWithin (w : Word) (bound opened : ℕ) : Prop :=
  ∃ depth ≤ bound, w.nesting = .ok ⟨depth, opened⟩

theorem nestsWithin_nil (bound : ℕ) : NestsWithin [] bound 0 := ⟨0, Nat.zero_le _, rfl⟩

namespace NestsWithin

variable {w : Word} {bound opened : ℕ}

theorem opened_le (h : w.NestsWithin bound opened) : opened ≤ bound := by
  obtain ⟨depth, hle, hw⟩ := h
  exact (of_nesting_eq_ok hw).1.unmatched_le.trans hle

/-- One more command, which opens a branch only where the bound allows it and closes only an open
one. -/
theorem append_singleton (h : w.NestsWithin bound opened) {c : Command}
    (hpush : c = .push → opened < bound) (hpop : c = .pop → 0 < opened) :
    NestsWithin (w ++ [c]) bound (Random.depthAfter opened c) := by
  obtain ⟨depth, hle, hw⟩ := h
  have hnext : nesting (w ++ [c]) = nestingFrom w.length ⟨depth, opened⟩ [c] := by
    rw [nesting_append, hw]
  cases c with
  | push => exact ⟨max depth (opened + 1), max_le hle (hpush rfl), hnext⟩
  | pop =>
    have hopen : ¬opened = 0 := (hpop rfl).ne'
    refine ⟨depth, hle, ?_⟩
    rw [hnext, nestingFrom, if_neg hopen]
    rfl
  | forward | forward2 | ignore | right | left => exact ⟨depth, hle, hnext⟩

theorem append_pops (h : w.NestsWithin bound opened) :
    NestsWithin (w ++ List.replicate opened .pop) bound 0 := by
  induction opened generalizing w with
  | zero => rwa [List.replicate_zero, List.append_nil]
  | succ k ih =>
    have hclosed : NestsWithin (w ++ [.pop]) bound k :=
      h.append_singleton nofun fun _ => Nat.succ_pos k
    rw [List.replicate_succ, List.append_cons]
    exact ih hclosed

end NestsWithin

end Word

namespace Random

variable {σ : Type} (S : Source σ) (shape : Shape)

theorem plain_ne (t : Float) : plain t ≠ .push ∧ plain t ≠ .pop := by
  unfold plain
  split_ifs <;> simp

theorem command_opens_or_closes (depth : ℕ) (g : σ) :
    ((command S shape depth g).1 = .push → depth < shape.depth) ∧
      ((command S shape depth g).1 = .pop → 0 < depth) := by
  simp only [command]
  split_ifs with hpush hpop
  · exact ⟨fun _ => hpush.2, nofun⟩
  · exact ⟨nofun, fun _ => hpop.2⟩
  · have hplain := plain_ne (S.unit (S.unit g).2).1
    exact ⟨fun h => absurd h hplain.1, fun h => absurd h hplain.2⟩

/-- The depth that is counted is the number of open branches, and it stays within the bound. -/
theorem nestsWithin_commands (n : ℕ) {read : Word} {depth : ℕ} {g : σ}
    (h : Word.NestsWithin read.reverse shape.depth.toNat depth) :
    Word.NestsWithin (commands S shape n read depth g).1.reverse shape.depth.toNat
      (commands S shape n read depth g).2.1 := by
  induction n generalizing read depth g with
  | zero => exact h
  | succ n ih =>
    obtain ⟨hpush, hpop⟩ := command_opens_or_closes S shape depth g
    apply ih
    rw [List.reverse_cons]
    apply h.append_singleton _ hpop
    intro hc
    have := hpush hc
    omega

theorem length_commands (n : ℕ) (read : Word) (depth : ℕ) (g : σ) :
    (commands S shape n read depth g).1.length = n + read.length := by
  induction n generalizing read depth g with
  | zero => simp [commands]
  | succ n ih =>
    rw [commands, ih, List.length_cons]
    omega

theorem nestsWithin_finish {w : Word} {bound depth : ℕ} (h : w.NestsWithin bound depth) :
    (finish w depth).NestsWithin bound 0 := by
  simp only [finish]
  split_ifs
  · exact h.append_pops
  · exact h.append_pops.append_singleton nofun nofun

theorem any_draws_finish (w : Word) (depth : ℕ) : (finish w depth).any Command.draws = true := by
  simp only [finish]
  split_ifs with h
  · exact h
  · rw [List.any_append]
    exact Bool.or_true _

theorem length_finish (w : Word) (depth : ℕ) :
    (finish w depth).length = w.length + depth + if w.any Command.draws then 0 else 1 := by
  have hdraws :
      (w ++ List.replicate depth Command.pop).any Command.draws = w.any Command.draws := by
    simp [List.any_append, List.any_replicate, Command.draws]
  simp only [finish, hdraws]
  split_ifs
  · simp
  · simp [add_assoc]

variable (g : σ)

theorem nestsWithin_word : (word S shape g).1.NestsWithin shape.depth.toNat 0 :=
  nestsWithin_finish (nestsWithin_commands S shape _ (Word.nestsWithin_nil _))

theorem any_draws_word : (word S shape g).1.any Command.draws = true := any_draws_finish _ _

theorem word_ne_nil : (word S shape g).1 ≠ [] := by
  intro h
  have hdraws := any_draws_word S shape g
  rw [h] at hdraws
  cases hdraws

theorem length_word_le :
    (word S shape g).1.length ≤ shape.length.toNat + shape.depth.toNat + 1 := by
  set made := commands S shape shape.length.toNat [] 0 g
  have hnests : Word.NestsWithin made.1.reverse shape.depth.toNat made.2.1 :=
    nestsWithin_commands S shape _ (Word.nestsWithin_nil _)
  have hopen := hnests.opened_le
  have hlength : made.1.length = shape.length.toNat := length_commands S shape _ [] 0 g
  have hword : (word S shape g).1 = finish made.1.reverse made.2.1 := rfl
  rw [hword, length_finish, List.length_reverse, hlength]
  split_ifs
  · omega
  · omega

end Random
end BracketTurtle
