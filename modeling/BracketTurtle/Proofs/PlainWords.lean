import BracketTurtle.Proofs.Depths

/-!
# Plain words

The plain form of a word has one drawing command and nothing that is without effect. A turtle walks
the plain form as it walks the word: it comes to the same pens and draws the same segments, and a
command that faults does so in its plain form. Only positions differ, by the commands without effect
that stood before.
-/

namespace BracketTurtle

/-- What is left of a command in a plain word. -/
def Command.plain : Command → Word
  | .ignore => []
  | .forward2 => [.forward]
  | cmd => [cmd]

namespace Word

/-- The word without the commands that have no effect, and with one drawing command. -/
def plain (w : Word) : Word := w.flatMap Command.plain

/-- Where the command at an index of a word stands in the plain word. -/
def plainPosition (w : Word) (k : ℕ) : ℕ := k - (w.take k).count .ignore

theorem plain_append (u v : Word) : (u ++ v).plain = u.plain ++ v.plain := List.flatMap_append

theorem plain_cons (cmd : Command) (w : Word) : plain (cmd :: w) = cmd.plain ++ w.plain := rfl

theorem length_plain (w : Word) : w.plain.length = w.length - w.count .ignore := by
  have hsum : w.plain.length + w.count .ignore = w.length := by
    induction w with
    | nil => rfl
    | cons cmd w ih =>
      have hone : cmd.plain.length + [cmd].count .ignore = 1 := by cases cmd <;> rfl
      rw [plain_cons, List.length_append, ← List.singleton_append, List.count_append,
        List.length_append, List.length_singleton]
      omega
  omega

theorem plainPosition_append (u v : Word) {k : ℕ} (h : k ≤ u.length) :
    (u ++ v).plainPosition k = u.plainPosition k := by
  rw [plainPosition, List.take_append_of_le_length h, plainPosition]

theorem plainPosition_length (u v : Word) : (u ++ v).plainPosition u.length = u.plain.length := by
  rw [plainPosition, List.take_left, length_plain]

example : plain [.ignore, .forward2, .ignore, .pop] = [.forward, .pop] ∧
    plainPosition [.ignore, .forward2, .ignore, .pop] 3 = 1 := by decide

end Word

variable {A : Arithmetic} {c : Course}

/-! ## Walks -/

/-- A command does the same in its plain form; without effect it is no step at all. -/
theorem Course.walk_plain_of_act {cmd : Command} {p q : Pen} {saved kept : List Pen}
    {s : Option Segment} (h : c.act A cmd p saved = .ok (q, kept, s)) :
    Walk A c p saved cmd.plain s.toList q kept := by
  cases acts_of_act h with
  | ignore => exact .nil
  | forward2 => exact .single h
  | _ => exact .single h

theorem Course.act_plain_error {cmd : Command} {p : Pen} {saved : List Pen} {e : Cause}
    (h : c.act A cmd p saved = .error e) :
    ∃ cmd', cmd.plain = [cmd'] ∧ c.act A cmd' p saved = .error e := by
  cases cmd with
  | ignore => cases h
  | forward2 => exact ⟨.forward, rfl, h⟩
  | _ => exact ⟨_, rfl, h⟩

theorem Walk.plain {p q : Pen} {saved kept : List Pen} {w : Word} {d : List Segment}
    (h : Walk A c p saved w d q kept) : Walk A c p saved w.plain d q kept := by
  induction h with
  | nil => exact .nil
  | cons hact _ ih => exact (Course.walk_plain_of_act hact).append ih

def Fault.inPlain (w : Word) (f : Fault) : Fault :=
  { f with position := w.plainPosition f.position }

/-- A run of the plain word is the run of the word, but for the position of the fault. -/
theorem runOn_plain {σ : Type} (draw : σ → Segment → σ) (canvas : σ) (w : Word) (start : Pen) :
    c.runOn A draw canvas w.plain start =
      { c.runOn A draw canvas w start with
        fault := (c.runOn A draw canvas w start).fault.map (Fault.inPlain w) } := by
  rcases walk_cases A c w start [] with
    ⟨d, q, kept, hwalk⟩ | ⟨u, cmd, v, d, q, kept, e, rfl, hwalk, he⟩
  · rw [runOn_of_walk draw hwalk, runOn_of_walk draw hwalk.plain]
    rfl
  · obtain ⟨cmd', hcmd, he'⟩ := Course.act_plain_error he
    have hplain : Word.plain (u ++ cmd :: v) = u.plain ++ cmd' :: Word.plain v := by
      rw [Word.plain_append, Word.plain_cons, hcmd, List.singleton_append]
    rw [hplain, runOn_of_fault draw hwalk.plain he', runOn_of_fault draw hwalk he,
      ← Word.plainPosition_length u (cmd :: v)]
    rfl

/-! ## Nesting -/

namespace Word

theorem nestingFrom_command_plain (cmd : Command) (position position' : ℕ) (n : Nesting) :
    nestingFrom position' n cmd.plain =
      (nestingFrom position n [cmd]).mapError fun _ => ⟨position'⟩ := by
  cases cmd with
  | pop =>
    simp only [Command.plain, nestingFrom]
    split_ifs <;> rfl
  | _ => rfl

theorem nestingFrom_command_error {cmd : Command} {position : ℕ} {n : Nesting} {e : UnmatchedPop}
    (h : nestingFrom position n [cmd] = .error e) : e = ⟨position⟩ := by
  cases cmd with
  | pop =>
    rw [nestingFrom] at h
    split_ifs at h
    · exact (Except.error.inj h).symm
    · cases h
  | _ => cases h

/-- The plain word has the nesting of the word, or the same `pop` closes nothing in it. -/
theorem nesting_plain (w : Word) :
    w.plain.nesting = w.nesting.mapError fun e => ⟨w.plainPosition e.position⟩ := by
  induction w using List.reverseRecOn with
  | nil => rfl
  | append_singleton w cmd ih =>
    have hcmd : plain [cmd] = cmd.plain := List.append_nil _
    rw [plain_append, nesting_append, nesting_append, ih, hcmd]
    rcases hw : nesting w with e | n
    · have hlt : e.position < w.length := (nesting_eq_error_iff.mp hw).lt
      simp only [Except.mapError, plainPosition_append w [cmd] hlt.le]
    · simp only [Except.mapError]
      rw [nestingFrom_command_plain cmd w.length]
      rcases hlast : nestingFrom w.length n [cmd] with e | m
      · obtain rfl := nestingFrom_command_error hlast
        simp only [Except.mapError, plainPosition_length]
      · rfl

end Word

/-- A word and its plain form cannot be told apart by what they draw. On any canvas, from any pen,
they draw the same segments, count the same, leave as many saved pens and end alike: normally, or
with the same fault after as many segments, the position of which is less by the number of commands
without effect before it. They have the same nesting, or the same `pop` that closes nothing, at
positions related in the same way. -/
theorem plain_word_draws_alike (A : Arithmetic) (c : Course) (w : Word) (start : Pen) :
    let position (k : ℕ) : ℕ := k - (w.take k).count .ignore
    let r := c.run A w start
    (c.run A w.plain start).segments = r.segments ∧
    (c.run A w.plain start).drawn = r.drawn ∧
    (c.run A w.plain start).fault = r.fault.map (fun f => ⟨f.cause, position f.position, f.drawn⟩) ∧
    (∀ (σ : Type) (draw : σ → Segment → σ) (canvas : σ),
      c.runOn A draw canvas w.plain start =
        ⟨r.segments.foldl draw canvas, r.drawn, r.unmatched,
          r.fault.map fun f => ⟨f.cause, position f.position, f.drawn⟩⟩) ∧
    w.plain.nesting = w.nesting.mapError fun e => ⟨position e.position⟩ := by
  intro position r
  have hrun : c.run A w.plain start = { r with fault := r.fault.map (Fault.inPlain w) } :=
    runOn_plain _ [] w start
  refine ⟨?_, ?_, ?_, ?_, Word.nesting_plain w⟩
  · rw [hrun]
    rfl
  · rw [hrun]
  · rw [hrun]
    rfl
  · intro σ draw canvas
    rw [runOn_eq_run, hrun]
    rfl

end BracketTurtle
