import BracketTurtle.Proofs.ConfigChecks
import BracketTurtle.Proofs.JsonTexts
import BracketTurtle.Proofs.ModestRuns
import BracketTurtle.Proofs.RandomWords
import BracketTurtle.Random.Source

/-!
# Random configs

A config made at random is an object with each key once and passes its checks, whatever the source
gives as long as its indices are below their bounds. Its steps are whole, from 5 to 15, and its
turns at most right angles, so its runs are modest.
-/

namespace BracketTurtle

def Source.IsBounded {σ : Type} (S : Source σ) : Prop :=
  ∀ bound g, 0 < bound → (S.index bound g).1 < bound

theorem Twister.isBounded_source : Twister.source.IsBounded :=
  fun _ g h => Twister.indexWithin_lt h Twister.patience g

open Number (value? Value IsBetween)

namespace Config

theorem number_integer (path : String) {n : ℤ} (hn : |n| < 2 ^ 53) :
    number path (.integer n) = .ok (Float.ofInt n) := by
  rw [number, Number.nearest?_eq_some hn]

end Config

namespace Random

/-! ## The choices -/

theorem exists_of_mem_steps {v : Json} (h : v ∈ steps) :
    ∃ s : ℕ, v = .integer s ∧ 5 ≤ s ∧ s ≤ 15 := by
  have hsteps : steps = [5, 8, 10, 12, 15].map fun s : ℕ => Json.integer s := rfl
  have hrange : ∀ s ∈ [5, 8, 10, 12, 15], 5 ≤ s ∧ s ≤ 15 := by decide
  rw [hsteps] at h
  obtain ⟨s, hs, rfl⟩ := List.mem_map.mp h
  exact ⟨s, rfl, hrange s hs⟩

theorem exists_of_mem_turns {v : Json} (h : v ∈ turns) :
    ∃ (x : Float) (t : ℚ), (∀ path, Config.number path v = .ok x) ∧ value? x = some (.ofRat t) ∧
      |t| ≤ 90 := by
  have hwhole (n : ℕ) (hn : n ≤ 90) :
      ∃ (x : Float) (t : ℚ), (∀ path, Config.number path (.integer n) = .ok x) ∧
        value? x = some (.ofRat t) ∧ |t| ≤ 90 := by
    have hsmall : |(n : ℤ)| < 2 ^ 53 := abs_lt.mpr ⟨by omega, by omega⟩
    refine ⟨_, n, fun path => Config.number_integer path hsmall, Number.value?_ofInt hsmall, ?_⟩
    rw [Nat.abs_cast]
    exact_mod_cast hn
  have hhalf : value? 22.5 = some (.ofRat (45 / 2)) := by
    have hexact : Number.exact 22.5 = .finite false ⟨6333186975989760, -48⟩ := by rfl
    rw [value?, hexact, Number.Exact.value?, Number.Exact.fraction, Number.Magnitude.value]
    norm_num
  simp only [turns, List.mem_cons, List.not_mem_nil, or_false] at h
  rcases h with rfl | rfl | rfl | rfl | rfl | rfl | rfl | rfl | rfl
  · exact hwhole 15 (by norm_num)
  · exact hwhole 20 (by norm_num)
  · refine ⟨22.5, 45 / 2, fun path => ?_, hhalf, by norm_num⟩
    rw [Config.number, if_pos (Number.isFinite_iff.mpr ⟨_, hhalf⟩)]
  · exact hwhole 25 (by norm_num)
  · exact hwhole 30 (by norm_num)
  · exact hwhole 36 (by norm_num)
  · exact hwhole 45 (by norm_num)
  · exact hwhole 60 (by norm_num)
  · exact hwhole 90 (by norm_num)

variable {σ : Type} {S : Source σ} (hS : S.IsBounded) (g : σ)

include hS in
theorem choose_mem {choices : List Json} (hne : choices ≠ []) :
    (choose S choices g).1 ∈ choices := by
  have hlt := hS choices.length g (List.length_pos_of_ne_nil hne)
  simp only [choose]
  rw [List.getD_eq_getElem _ _ hlt]
  exact List.getElem_mem hlt

/-! ## The config -/

/-- What a config made of a word, a step and a turn is read as. -/
def configOf (w : Word) (step turn : Float) : Config where
  name := "Random L-System Word"
  word := w
  course := ⟨step, turn, true⟩
  start := ⟨Float.ofInt 0, Float.ofInt 0, Float.ofInt (-90)⟩
  svg := ⟨Float.ofInt 10, 3, false, none, none, ⟨"#000", 1, "none", "round", "round"⟩, none⟩

/-- The words, steps and turns of random configs. -/
structure Parts (S : Source σ) (w : Word) (step turn : Float) : Prop where
  word : ∃ (n : ℤ) (g : σ), n ≤ 160 ∧ w = (word S (.standard n) g).1
  step : ∃ s : ℕ, value? step = some (.ofRat s) ∧ 5 ≤ s ∧ s ≤ 15
  turn : ∃ t : ℚ, value? turn = some (.ofRat t) ∧ |t| ≤ 90

include hS in
/-- A random config passes its checks. -/
theorem ofJson_config :
    ∃ w step turn, Config.ofJson (config S g) = .ok (configOf w step turn) ∧
      Parts S w step turn := by
  let afterTurn := (choose S turns g).2
  let afterStep := (choose S steps afterTurn).2
  let extra := S.index 121 afterStep
  have hturns : (choose S turns g).1 ∈ turns := choose_mem hS g nofun
  have hsteps : (choose S steps afterTurn).1 ∈ steps := choose_mem hS afterTurn nofun
  have hextra : extra.1 < 121 := hS 121 afterStep (by norm_num)
  obtain ⟨turn, t, hturn, ht, htle⟩ := exists_of_mem_turns hturns
  obtain ⟨s, hstep, hlow, hhigh⟩ := exists_of_mem_steps hsteps
  have hsmall {n : ℤ} (hn : |n| ≤ 90) (path : String) :
      Config.number path (.integer n) = .ok (Float.ofInt n) :=
    Config.number_integer path (by omega)
  have hnumber (path : String) :
      Config.number path (choose S steps afterTurn).1 = .ok (Float.ofInt s) := by
    rw [hstep]
    exact hsmall (abs_le.mpr ⟨by omega, by omega⟩) path
  have hwidth (path : String) : Config.number path (.number 1) = .ok 1 := by
    rw [Config.number, if_pos (Number.isFinite_iff.mpr ⟨1, Number.value?_one⟩)]
  let shape := Shape.standard (40 + extra.1)
  have hword : Config.readWord "word" (word S shape extra.2).1.symbolsText =
      .ok (word S shape extra.2).1 := by
    rw [Config.readWord, Word.parse_symbolsText (word_ne_nil S shape extra.2)]
    rfl
  refine ⟨(word S shape extra.2).1, Float.ofInt s, turn, ?_, ⟨40 + extra.1, extra.2, by omega, rfl⟩,
    ⟨s, Number.value?_ofInt (abs_lt.mpr ⟨by omega, by omega⟩), hlow, hhigh⟩, t, ht, htle⟩
  simp [config, configOf, Config.ofJson, Config.ofMembers, Config.object, Config.text,
    Config.boolean, Config.places, Config.integer, Config.courseAndStart, Config.pen,
    Config.settings, Config.style, Config.orElse, Config.nullable, Table.get?, List.lookup, bind,
    Except.bind, pure, Except.pure, hword, hsmall, hwidth, hnumber, hturn, afterTurn, afterStep,
      extra, shape]

include hS in
theorem hasDistinctKeys_config : (config S g).HasDistinctKeys := by
  have hsteps : (choose S steps (choose S turns g).2).1 ∈ steps := choose_mem hS _ nofun
  have hturns : (choose S turns g).1 ∈ turns := choose_mem hS g nofun
  have hstep : (choose S steps (choose S turns g).2).1.HasDistinctKeys := by
    obtain ⟨s, hs, _⟩ := exists_of_mem_steps hsteps
    rw [hs]
    exact .integer s
  have hturn : (choose S turns g).1.HasDistinctKeys := by
    have hall : ∀ v ∈ turns, v.HasDistinctKeys := by
      simp only [turns, List.forall_mem_cons]
      exact ⟨.integer _, .integer _, .number _, .integer _, .integer _, .integer _, .integer _,
        .integer _, .integer _, List.forall_mem_nil _⟩
    exact hall _ hturns
  have hstart : (Json.object
      [("x", .integer 0), ("y", .integer 0), ("heading", .integer (-90))]).HasDistinctKeys := by
    refine .object (by simp) ?_
    simp only [List.forall_mem_cons]
    exact ⟨.integer _, .integer _, .integer _, List.forall_mem_nil _⟩
  have hstyle : (Json.object
      [("stroke", .string "#000"), ("stroke_width", .number 1), ("fill", .string "none"),
        ("stroke_linecap", .string "round"),
        ("stroke_linejoin", .string "round")]).HasDistinctKeys := by
    refine .object (by simp) ?_
    simp only [List.forall_mem_cons]
    exact ⟨.string _, .number _, .string _, .string _, .string _, List.forall_mem_nil _⟩
  simp only [config]
  refine .object (by simp) ?_
  simp only [List.forall_mem_cons]
  refine ⟨.string _, .string _, .object (by simp) ?_, .object (by simp) ?_, List.forall_mem_nil _⟩
  · simp only [List.forall_mem_cons]
    exact ⟨hstep, hturn, .bool _, hstart, List.forall_mem_nil _⟩
  · simp only [List.forall_mem_cons]
    exact ⟨.integer _, .integer _, .bool _, hstyle, List.forall_mem_nil _⟩

/-! ## Its runs -/

theorem turns_lt_limit {t : ℚ} (ht : |t| ≤ 90) {w : Word} (hw : w.length ≤ 165) :
    90 + w.countP Command.turns * (|t| + Number.halfPlace) < Number.limit := by
  have hcount : (w.countP Command.turns : ℚ) ≤ 165 := by
    exact_mod_cast List.countP_le_length.trans hw
  have hlimit : Number.limit = 2 ^ (53 : ℤ) * (Number.halfPlace * 2) := by
    rw [Number.limit_eq, Number.halfPlace_mul_two]
  have hhalf := Number.one_lt_halfPlace
  have hnonneg := abs_nonneg t
  calc 90 + w.countP Command.turns * (|t| + Number.halfPlace)
      ≤ 90 + 165 * (90 + Number.halfPlace) := by gcongr
    _ < 2 ^ (53 : ℤ) * (Number.halfPlace * 2) := by
      norm_num
      linarith
    _ = Number.limit := hlimit.symm

theorem Parts.length_le {w : Word} {step turn : Float} (h : Parts S w step turn) :
    w.length ≤ 165 := by
  obtain ⟨n, g, hn, rfl⟩ := h.word
  have hlength := length_word_le S (.standard n) g
  have hshape : (Shape.standard n).length = n ∧ (Shape.standard n).depth = 4 := ⟨rfl, rfl⟩
  rw [hshape.1, hshape.2] at hlength
  omega

/-- All that a random config draws is near to the origin, in steps of five or more. -/
theorem Parts.isModest {w : Word} {step turn : Float} (h : Parts S w step turn) :
    ∃ s, IsModest (configOf w step turn).course (configOf w step turn).start w s 0 ∧ 5 ≤ s ∧
      w.countP Command.draws * s ≤ 2475 := by
  obtain ⟨s, hs, hlow, hhigh⟩ := h.step
  obtain ⟨t, ht, htle⟩ := h.turn
  have hcount : w.countP Command.draws ≤ 165 := List.countP_le_length.trans h.length_le
  have hreach : w.countP Command.draws * s ≤ 2475 := Nat.mul_le_mul hcount hhigh
  have hzero : IsBetween (Float.ofInt 0) (-((0 : ℕ) : ℤ)) ((0 : ℕ) : ℤ) :=
    Number.isBetween_ofInt (by norm_num)
  have hheading : value? (Float.ofInt (-90)) = some (.ofRat ((-90 : ℤ) : ℚ)) :=
    Number.value?_ofInt (by norm_num)
  refine ⟨s, ⟨hs, ⟨hzero, hzero⟩, by omega, _, t, hheading, ht, ?_⟩, hlow, hreach⟩
  have hninety : |((-90 : ℤ) : ℚ)| = 90 := by norm_num
  rw [hninety]
  exact turns_lt_limit htle h.length_le

end Random
end BracketTurtle
