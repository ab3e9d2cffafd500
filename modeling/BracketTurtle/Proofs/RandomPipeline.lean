import BracketTurtle.Proofs.GridDrawings
import BracketTurtle.Proofs.RandomConfigs
import BracketTurtle.Proofs.RoundTrips
import BracketTurtle.Proofs.SeedArguments
import BracketTurtle.Proofs.Summaries

/-!
# From a seed to a drawing

What `random` saves is loaded as the config that was made, is accepted by `validate` and is drawn by
`render`, whatever the seed, as long as it has no more digits than are read. Each stage is known to
end well on what the stage before it leaves.
-/

namespace BracketTurtle

variable {cos sin : Float → Float}

theorem Random.Parts.drawable (hcircular : IsCircular cos sin) {σ : Type} {S : Source σ} {w : Word}
    {step turn : Float} (h : Random.Parts S w step turn) :
    let c := Random.configOf w step turn
    let run := c.course.run (.rounded cos sin) c.word c.start
    (∃ depth ≤ 4, c.word.nesting = .ok ⟨depth, 0⟩) ∧ run.fault = none ∧
      run.segments.length = c.word.countP Command.draws ∧ 0 < c.word.countP Command.draws ∧
      Program.IsDrawable (.rounded cos sin) c := by
  intro c run
  obtain ⟨s, hmodest, hfive, hreach⟩ := h.isModest
  obtain ⟨n, g, _, hw⟩ := h.word
  obtain ⟨depth, hdepth, hnesting⟩ : w.NestsWithin 4 0 := by
    rw [hw]
    exact Random.nestsWithin_word S (.standard n) g
  have hdraws : w.any Command.draws = true := by
    rw [hw]
    exact Random.any_draws_word S (.standard n) g
  have hfault : run.fault = none := hmodest.fault_eq_none hcircular hnesting
  have hmargin : Number.IsBetween c.svg.margin ((10 : ℕ) : ℤ) ((10 : ℕ) : ℤ) :=
    Number.isBetween_ofInt (by norm_num)
  have hsmall : 2 * (w.countP Command.draws * s + 1 + 10) < 2 ^ 53 := by omega
  have hpos : 0 < w.countP Command.draws := by
    rw [List.countP_pos_iff]
    simpa using hdraws
  exact ⟨⟨depth, hdepth, hnesting⟩, hfault, (run_of_fault_eq_none hfault).2.1, hpos,
    Program.isDrawable_of_isModest hcircular hmodest rfl hfive hdraws hnesting hmargin (by norm_num)
      hsmall⟩

namespace Program

variable (A : Arithmetic) (fresh : ℤ) {here : Location} {t : FileTree} {c : Config} {out : String}

/-- `random` puts its config under a name that is free, and ends well. -/
theorem run_random {seed : ℤ} (hseed : seed.natAbs < 10 ^ Text.digitLimit)
    (hout : IsPlainArgument out) (hplace : t.IsWorkplace here) (hfresh : t.IsFresh here out) :
    let v := Random.config Twister.source (Twister.ofSeed seed)
    let made := (job A fresh ["random", out, "--seed", Number.integerText seed]).run here t
    made.2 = t.put (here ++ [out.toList]) (.file (Utf8.encode v.fileChars)) ∧
      made.1.ending = .exit 0 ∧ LoadsValue made.2 here out v := by
  intro v made
  have hkeys : v.HasDistinctKeys := Random.hasDistinctKeys_config Twister.isBounded_source _
  have hjob : job A fresh ["random", out, "--seed", Number.integerText seed] =
      saving false [] out (String.ofList v.fileChars) [] := by
    rw [job, CommandLine.read_random hout, if_pos hseed]
    rfl
  have hsave := FileTree.save_of_isFresh hplace hfresh (Utf8.encode v.fileChars)
  have hmade : made = (saving false [] out (String.ofList v.fileChars) []).run here t :=
    congrArg (fun j => Job.run here j t) hjob
  obtain ⟨htree, hending⟩ := run_saving [] [] out (String.ofList v.fileChars)
  rw [String.toList_ofList, hsave, ← hmade] at htree hending
  have hsaved : t.save here out (Utf8.encode v.fileChars) = (made.2, .ok ()) :=
    hsave.trans (Prod.ext htree.symm rfl)
  exact ⟨htree, hending.mpr rfl, loadsValue_of_save hkeys hsaved⟩

theorem run_random_of_long {seed : ℤ} (hseed : ¬seed.natAbs < 10 ^ Text.digitLimit)
    (hout : IsPlainArgument out) :
    (job A fresh ["random", out, "--seed", Number.integerText seed]).run here t =
      (refusal CommandLine.randomGrammar
        (.notAnInteger CommandLine.seedSwitch (Number.integerText seed)), t) := by
  rw [job, CommandLine.read_random hout, if_neg hseed]
  rfl

theorem run_validate_of_loads (hout : IsPlainArgument out) (hload : Loads t here out c) {depth : ℕ}
    (hnesting : c.word.nesting = .ok ⟨depth, 0⟩)
    (hfault : (c.course.run A c.word c.start).fault = none)
    (hsegments : 0 < (c.course.run A c.word c.start).segments.length) :
    let checked := (job A fresh ["validate", out]).run here t
    checked.2 = t ∧ checked.1.ending = .exit 0 ∧
      checked.1.out =
        summary c ⟨depth, 0⟩ ++ [segmentsLine (c.course.run A c.word c.start).segments.length] := by
  have hjob : job A fresh ["validate", out] = validate A false out := by
    simp only [job, CommandLine.read_validate hout, perform]
  have hsome := List.ne_nil_of_length_pos hsegments
  rw [hjob, run_validate hload, validation_eq_success false hnesting hfault hsome]
  simp [Report.success, warning]

end Program

/-! ## The machine's cosine and sine -/

/-- What `IsCircular` asks of the cosine and the sine of one angle. -/
def IsUnitPair (c s : Float) : Prop :=
  (-1 ≤ c ∧ c ≤ 1) ∧ (-1 ≤ s ∧ s ≤ 1) ∧ ((c ≤ -0.7 ∨ 0.7 ≤ c) ∨ s ≤ -0.7 ∨ 0.7 ≤ s)

instance (c s : Float) : Decidable (IsUnitPair c s) :=
  inferInstanceAs (Decidable ((_ ∧ _) ∧ (_ ∧ _) ∧ ((_ ∨ _) ∨ _ ∨ _)))

/-- The machine's cosine, where it makes such a pair with the sine. -/
def guardedCos (x : Float) : Float :=
  if IsUnitPair (Float.cos x) (Float.sin x) then Float.cos x else 1

def guardedSin (x : Float) : Float :=
  if IsUnitPair (Float.cos x) (Float.sin x) then Float.sin x else 0

theorem isUnitPair_guarded (x : Float) : IsUnitPair (guardedCos x) (guardedSin x) := by
  unfold guardedCos guardedSin
  split
  · assumption
  · decide +kernel

theorem isCircular_guarded : IsCircular guardedCos guardedSin :=
  ⟨fun x _ => (isUnitPair_guarded x).1, fun x _ => (isUnitPair_guarded x).2.1,
    fun x _ => (isUnitPair_guarded x).2.2⟩

/-! ## All stages -/

/-- In a working directory where two names are free, a config made from any seed that can be given
is saved under the one, loaded as what it was made as, accepted with a summary that tells of no open
branches, of a depth of at most four and of as many segments as the word has commands that draw, and
drawn under the other. -/
theorem random_pipeline (hcircular : IsCircular cos sin) (fresh seed : ℤ)
    (hseed : seed.natAbs < 10 ^ Text.digitLimit) (here : Location) (t : FileTree)
    (out svg : String) (hout : IsPlainArgument out) (hsvg : IsPlainArgument svg) (hne : out ≠ svg)
    (hplace : t.IsWorkplace here) (hfresh : t.IsFresh here out) (hfree : t.IsFresh here svg) :
    let run (arguments : List String) (files : FileTree) :=
      (Program.job (.rounded cos sin) fresh arguments).run here files
    let made := run ["random", out, "--seed", Number.integerText seed] t
    let checked := run ["validate", out] made.2
    let drawn := run ["render", out, svg] checked.2
    let v := Random.config Twister.source (Twister.ofSeed seed)
    made.1.ending = .exit 0 ∧ Program.LoadsValue made.2 here out v ∧
      ∃ c depth, Config.ofJson v = .ok c ∧ c.word.nesting = .ok ⟨depth, 0⟩ ∧ depth ≤ 4 ∧
        0 < c.word.count .forward + c.word.count .forward2 ∧
        checked.1.ending = .exit 0 ∧
        checked.1.out = Program.summary c ⟨depth, 0⟩ ++
          [Program.segmentsLine (c.word.count .forward + c.word.count .forward2)] ∧
        drawn.1.ending = .exit 0 := by
  intro run made checked drawn v
  obtain ⟨w, step, turn, hjson, hparts⟩ :=
    Random.ofJson_config Twister.isBounded_source (Twister.ofSeed seed)
  obtain ⟨⟨depth, hdepth, hnesting⟩, hfault, hlength, hpos, hdrawable⟩ := hparts.drawable hcircular
  obtain ⟨htree, hmade, hvalue⟩ :=
    Program.run_random (.rounded cos sin) fresh hseed hout hplace hfresh
  have hload := Program.loads_iff.mpr ⟨_, hvalue, hjson⟩
  obtain ⟨hsame, hchecked, hreport⟩ :=
    Program.run_validate_of_loads (.rounded cos sin) fresh hout hload hnesting hfault
      (hlength ▸ hpos)
  rw [hlength, Word.countP_draws] at hreport
  rw [Word.countP_draws] at hpos
  -- The name for the drawing is still free once the config is saved.
  have hother : svg.toList ≠ out.toList := fun h => hne (String.toList_inj.mp h.symm)
  have hdrawn : drawn.1.ending = .exit 0 := by
    have hjob : Program.job (.rounded cos sin) fresh ["render", out, svg] =
        Program.render (.rounded cos sin) false out (some svg) none := by
      simp only [Program.job, CommandLine.read_render hout hsvg, Program.perform]
    have hsave (bytes : List UInt8) : (made.2.save here svg bytes).2 = .ok () := by
      simp only [made, run, htree]
      rw [FileTree.save_of_isFresh (hplace.put _ _) (hfree.put hother _)]
    have hkept : checked.2 = made.2 := hsame
    simp only [drawn, run, hjob, hkept]
    exact Program.render_of_isDrawable hload hfault hdrawable hsave
  exact ⟨hmade, hvalue, _, depth, hjson, hnesting, hdepth, hpos, hchecked, hreport, hdrawn⟩

theorem random_pipeline_guarded :
    let run (arguments : List String) (files : FileTree) :=
      (Program.job (.rounded guardedCos guardedSin) 0 arguments).run [] files
    let made := run ["random", "o", "--seed", Number.integerText (-7)] .empty
    let checked := run ["validate", "o"] made.2
    let drawn := run ["render", "o", "p"] checked.2
    let v := Random.config Twister.source (Twister.ofSeed (-7))
    IsCircular guardedCos guardedSin ∧ (-7 : ℤ).natAbs < 10 ^ Text.digitLimit ∧
      IsPlainArgument "o" ∧ IsPlainArgument "p" ∧ "o" ≠ "p" ∧
      FileTree.empty.IsWorkplace [] ∧ FileTree.empty.IsFresh [] "o" ∧
      FileTree.empty.IsFresh [] "p" ∧
      made.1.ending = .exit 0 ∧ Program.LoadsValue made.2 [] "o" v ∧
      ∃ c depth, Config.ofJson v = .ok c ∧ c.word.nesting = .ok ⟨depth, 0⟩ ∧ depth ≤ 4 ∧
        0 < c.word.count .forward + c.word.count .forward2 ∧
        checked.1.ending = .exit 0 ∧
        checked.1.out = Program.summary c ⟨depth, 0⟩ ++
          [Program.segmentsLine (c.word.count .forward + c.word.count .forward2)] ∧
        drawn.1.ending = .exit 0 := by
  have hlimit : Text.digitLimit ≠ 0 := by decide
  have hseed : (-7 : ℤ).natAbs < 10 ^ Text.digitLimit :=
    lt_of_lt_of_le (by decide : 7 < 10) (Nat.le_self_pow hlimit 10)
  have hout : IsPlainArgument "o" := by decide
  have hsvg : IsPlainArgument "p" := by decide
  have hne : "o" ≠ "p" := by decide
  have hplace : FileTree.empty.IsWorkplace [] := FileTree.isWorkplace_root _
  have hfresh : FileTree.empty.IsFresh [] "o" := by decide
  have hfree : FileTree.empty.IsFresh [] "p" := by decide
  exact ⟨isCircular_guarded, hseed, hout, hsvg, hne, hplace, hfresh, hfree,
    random_pipeline isCircular_guarded 0 (-7) hseed [] .empty "o" "p" hout hsvg hne hplace hfresh
      hfree⟩

/-- The least seed with more digits than are read. -/
theorem random_refuses_long_seed :
    let seed : ℤ := 10 ^ Text.digitLimit
    let made := (Program.job (.rounded guardedCos guardedSin) 0
      ["random", "o", "--seed", Number.integerText seed]).run [] .empty
    IsCircular guardedCos guardedSin ∧ IsPlainArgument "o" ∧ FileTree.empty.IsWorkplace [] ∧
      FileTree.empty.IsFresh [] "o" ∧ made.1.ending = .exit 2 ∧ made.2 = .empty := by
  intro seed made
  have hlong : ¬seed.natAbs < 10 ^ Text.digitLimit := by
    simp [seed, Int.natAbs_pow]
  have hmade : made = _ :=
    Program.run_random_of_long (.rounded guardedCos guardedSin) 0 hlong (by decide)
  rw [hmade]
  exact ⟨isCircular_guarded, by decide, FileTree.isWorkplace_root _,
    by decide, rfl, rfl⟩

end BracketTurtle
