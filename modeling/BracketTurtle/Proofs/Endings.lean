import BracketTurtle.Program.Commands
import BracketTurtle.Proofs.SavedFiles
import BracketTurtle.Proofs.Walks

/-!
# Endings

When the commands of the program end well: every step of theirs has to come to something, from the
reading of the config to the saving of the drawing.
-/

namespace BracketTurtle

def Ending.code? : Ending → Option ℕ
  | .exit code => some code
  | .failed _ => none

theorem Ending.eq_exit_of_code? {e : Ending} {code : ℕ} (h : e.code? = some code) :
    e = .exit code := by
  cases e with
  | exit n => exact congrArg Ending.exit (Option.some.inj h)
  | failed f => cases h

theorem Report.failure_ending_ne (verbose : Bool) (out : List String) (notices : List Notice)
    (f : Failure) : (Report.failure verbose out notices f).ending ≠ .exit 0 := by
  unfold Report.failure
  split
  · simp [Report.failureCode]
  · simp

namespace Program

def Loads (t : FileTree) (here : Location) (path : String) (c : Config) : Prop :=
  ∃ bytes, t.read here path = .ok bytes ∧ configOf path bytes = .ok c

/-- The file under a path holds this config, and the strings of the config are texts: it is the same
config whatever stands in for half of a pair. -/
def LoadsTexts (t : FileTree) (here : Location) (path : String) (c : Config) : Prop :=
  ∃ bytes, t.read here path = .ok bytes ∧ ∀ half, configWith half path bytes = .ok c

theorem Loads.unique {t : FileTree} {here : Location} {path : String} {c d : Config}
    (hc : Loads t here path c) (hd : Loads t here path d) : c = d := by
  obtain ⟨bytes, hbytes, hc⟩ := hc
  obtain ⟨bytes', hbytes', hd⟩ := hd
  obtain rfl := Except.ok.inj (hbytes.symm.trans hbytes')
  exact Except.ok.inj (hc.symm.trans hd)

theorem plotOf_eq_run (A : Arithmetic) (c : Config) :
    plotOf A c =
      ⟨(c.course.run A c.word c.start).segments.foldl Surface.plot [],
        (c.course.run A c.word c.start).drawn, (c.course.run A c.word c.start).unmatched,
        (c.course.run A c.word c.start).fault⟩ :=
  runOn_eq_run Surface.plot c.word c.start []

def linesOf (A : Arithmetic) (c : Config) : List (List Point) :=
  polylines ((c.course.run A c.word c.start).segments.foldl Surface.plot [])

theorem drawingOf_eq_ok {A : Arithmetic} {c : Config} {text : String} :
    drawingOf c (plotOf A c) = .ok text ↔
      (c.course.run A c.word c.start).fault = none ∧
        Svg.document c.svg (some c.name) (linesOf A c) = .ok text := by
  rw [plotOf_eq_run, drawingOf, linesOf]
  cases (c.course.run A c.word c.start).fault with
  | some f => simp
  | none =>
    cases Svg.document c.svg (some c.name)
        (polylines ((c.course.run A c.word c.start).segments.foldl Surface.plot [])) with
    | error e => simp [Except.mapError]
    | ok text => simp [Except.mapError]

variable {A : Arithmetic} {verbose : Bool} {config : String} {output word : Option String}
  {here : Location} {t : FileTree}

/-- Saving leaves the tree that comes of it, and ends well when the file could be written. -/
theorem run_saving (notices after : List Notice) (path text : String) :
    ((saving verbose notices path text after).run here t).2 =
        (t.save here path (Utf8.encode text.toList)).1 ∧
      (((saving verbose notices path text after).run here t).1.ending = .exit 0 ↔
        (t.save here path (Utf8.encode text.toList)).2 = .ok ()) := by
  unfold saving
  rw [Job.run]
  obtain ⟨t', result⟩ := t.save here path (Utf8.encode text.toList)
  cases result with
  | error e => simp [Report.failure_ending_ne]
  | ok _ => simp [Report.success]

section

/-! What `render` does with a config that it has read and that takes the word. -/

variable {given c : Config} (hload : Loads t here config given)
  (hword : override word given = .ok c)
include hload hword

theorem run_render_of_error {f : Failure} (h : drawingOf c (plotOf A c) = .error f) :
    (render A verbose config output word).run here t =
      (.failure verbose [] (noticesOf c (plotOf A c)) f, t) := by
  obtain ⟨bytes, hbytes, hconfig⟩ := hload
  unfold render
  rw [Job.run, hbytes]
  simp only [hconfig, hword, h, Job.run_finish]

theorem run_render_without_output {text : String} (h : drawingOf c (plotOf A c) = .ok text) :
    (render A verbose config none word).run here t =
      (.failure verbose [] (noticesOf c (plotOf A c)) .noPath, t) := by
  obtain ⟨bytes, hbytes, hconfig⟩ := hload
  unfold render
  rw [Job.run, hbytes]
  simp only [hconfig, hword, h, Job.run_finish]

theorem run_render_of_ok {text path : String} (h : drawingOf c (plotOf A c) = .ok text) :
    (render A verbose config (some path) word).run here t =
      (saving verbose (noticesOf c (plotOf A c)) path text [wrote path]).run here t := by
  obtain ⟨bytes, hbytes, hconfig⟩ := hload
  unfold render
  rw [Job.run, hbytes]
  simp only [hconfig, hword, h]

end

theorem loads_of_render
    (h : ((render A verbose config output word).run here t).1.ending = .exit 0) :
    ∃ given c, Loads t here config given ∧ override word given = .ok c := by
  unfold render at h
  rw [Job.run] at h
  cases hbytes : t.read here config with
  | error e => simp [hbytes, Report.failure_ending_ne] at h
  | ok bytes =>
    simp only [hbytes] at h
    cases hconfig : configOf config bytes with
    | error f => simp [hconfig, Report.failure_ending_ne] at h
    | ok given =>
      simp only [hconfig] at h
      cases hc : override word given with
      | error f => simp [hc, Report.failure_ending_ne] at h
      | ok c => exact ⟨given, c, ⟨bytes, hbytes, hconfig⟩, hc⟩

/-- `render` ends well when the config is read, takes the word, can be drawn and is saved. -/
theorem render_ending :
    ((render A verbose config output word).run here t).1.ending = .exit 0 ↔
      ∃ given c text path, Loads t here config given ∧ override word given = .ok c ∧
        drawingOf c (plotOf A c) = .ok text ∧ output = some path ∧
        (t.save here path (Utf8.encode text.toList)).2 = .ok () := by
  constructor
  · intro h
    obtain ⟨given, c, hload, hword⟩ := loads_of_render h
    cases htext : drawingOf c (plotOf A c) with
    | error f =>
      rw [run_render_of_error hload hword htext] at h
      exact absurd h (Report.failure_ending_ne _ _ _ _)
    | ok text =>
      cases output with
      | none =>
        rw [run_render_without_output hload hword htext] at h
        exact absurd h (Report.failure_ending_ne _ _ _ _)
      | some path =>
        rw [run_render_of_ok hload hword htext] at h
        exact ⟨given, c, text, path, hload, hword, htext, rfl, (run_saving ..).2.mp h⟩
  · rintro ⟨given, c, text, path, hload, hword, htext, rfl, hsave⟩
    rw [run_render_of_ok hload hword htext]
    exact (run_saving ..).2.mpr hsave

/-- A drawing that could be saved is what is read back. -/
theorem read_of_render {given c : Config} {path text : String} (hload : Loads t here config given)
    (hword : override word given = .ok c) (htext : drawingOf c (plotOf A c) = .ok text)
    (hsave : (t.save here path (Utf8.encode text.toList)).2 = .ok ()) :
    ((render A verbose config (some path) word).run here t).2.read here path =
      .ok (Utf8.encode text.toList) := by
  rw [run_render_of_ok hload hword htext, (run_saving ..).1]
  exact FileTree.read_of_save (Prod.ext rfl hsave)

theorem validation_ending (A : Arithmetic) (verbose : Bool) (c : Config) :
    (validation A verbose c).ending = .exit 0 ↔
      (∃ n, c.word.nesting = .ok n) ∧ (c.course.run A c.word c.start).fault = none ∧
        (c.course.run A c.word c.start).segments ≠ [] := by
  unfold validation
  cases hnesting : c.word.nesting with
  | error e => simp [Report.failure_ending_ne]
  | ok n =>
    cases hfault : (c.course.run A c.word c.start).fault with
    | some f => simp [hfault, Report.failure_ending_ne]
    | none =>
      by_cases hempty : (c.course.run A c.word c.start).segments = []
      · simp [hfault, hempty, Report.failure_ending_ne]
      · simp [hfault, hempty, Report.success]

theorem run_validate {c : Config} (hload : Loads t here config c) :
    (validate A verbose config).run here t = (validation A verbose c, t) := by
  obtain ⟨bytes, hbytes, hconfig⟩ := hload
  unfold validate
  rw [Job.run, hbytes]
  simp only [hconfig, Job.run_finish]

theorem validation_eq_success (verbose : Bool) {c : Config} {n : Nesting}
    (hnesting : c.word.nesting = .ok n) (hfault : (c.course.run A c.word c.start).fault = none)
    (hsegments : (c.course.run A c.word c.start).segments ≠ []) :
    validation A verbose c =
      .success verbose
        (summary c n ++ [segmentsLine (c.course.run A c.word c.start).segments.length] ++
          warning n.unmatched)
        (noticesOf c (c.course.run A c.word c.start)) := by
  unfold validation
  rw [hnesting]
  simp [hfault, hsegments]

/-- `validate` ends well when the config is read, its branches match, and a run draws something. -/
theorem validate_ending :
    ((validate A verbose config).run here t).1.ending = .exit 0 ↔
      ∃ c, Loads t here config c ∧ (∃ n, c.word.nesting = .ok n) ∧
        (c.course.run A c.word c.start).fault = none ∧
        (c.course.run A c.word c.start).segments ≠ [] := by
  unfold validate Loads
  rw [Job.run]
  cases hbytes : t.read here config with
  | error e => simp [Report.failure_ending_ne]
  | ok bytes =>
    cases hconfig : configOf config bytes with
    | error f => simp [hconfig, Report.failure_ending_ne]
    | ok c => simp [hconfig, validation_ending]

/-! ## A directory with one config -/

/-- Nothing but a config, under the name `c`. -/
def onlyConfig (text : String) : FileTree := ⟨[([['c']], .file (Utf8.encode text.toList))]⟩

theorem read_onlyConfig (text : String) :
    (onlyConfig text).read [] "c" = .ok (Utf8.encode text.toList) := by
  rfl

end Program
end BracketTurtle
