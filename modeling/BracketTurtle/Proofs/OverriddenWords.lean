import BracketTurtle.Proofs.Endings
import BracketTurtle.Proofs.Outcomes
import BracketTurtle.Proofs.RoundTrips

/-!
# Overridden words

A word that is given beside a config and the same word in the config lead to one drawing. The
checks of a config look at its fields one by one, so only the word differs when its field does;
from the config on `render` knows no more of where the word came from. A word that is none is
refused either way, before anything is drawn, with the name of the place where it stood.
-/

namespace BracketTurtle

/-- The members of a config with this text for its word. -/
structure Config.IsEdited (text : String) (members edited : Registry Json) : Prop where
  word : edited.get? "word" = some (.string text)
  rest : ∀ key, key ≠ "word" → edited.get? key = members.get? key

theorem Config.isEdited_put (text : String) (members : Registry Json) :
    IsEdited text members (members.put "word" (.string text)) :=
  ⟨Table.get?_put_self _ _ _, fun _ h => Table.get?_put_of_ne h _ _⟩

namespace Config

theorem IsEdited.orElse {α : Type} {text : String} {members edited : Registry Json}
    (h : IsEdited text members edited) {key : String} (hkey : key ≠ "word") (default : α)
    (read : Json → Check α) :
    Config.orElse edited key default read = Config.orElse members key default read := by
  rw [Config.orElse, h.rest key hkey, Config.orElse]

/-- An accepted config with another word is the same config with this word, if it is one. -/
theorem ofMembers_edited {text : String} {members edited : Registry Json} {given : Config}
    (h : IsEdited text members edited) (hgiven : ofMembers members = .ok given) :
    ofMembers edited = (readWord "word" text).map fun w => { given with word := w } := by
  obtain ⟨name, hname, hgiven⟩ := bind_eq_ok.mp hgiven
  rw [ofMembers, h.orElse (by decide), hname, h.word]
  split at hgiven
  · cases hgiven
  · obtain ⟨_, _, hgiven⟩ := bind_eq_ok.mp hgiven
    obtain ⟨_, _, hgiven⟩ := bind_eq_ok.mp hgiven
    obtain ⟨turtle, hturtle, hgiven⟩ := bind_eq_ok.mp hgiven
    obtain ⟨⟨course, start⟩, hcourse, hgiven⟩ := bind_eq_ok.mp hgiven
    obtain ⟨svg, hsvg, hgiven⟩ := bind_eq_ok.mp hgiven
    obtain ⟨settings, hsettings, hgiven⟩ := bind_eq_ok.mp hgiven
    cases hgiven
    simp only [ok_bind, Config.text]
    cases readWord "word" text with
    | error e => rfl
    | ok w =>
      rw [h.orElse (by decide), hturtle, h.orElse (by decide), hsvg]
      simp only [ok_bind, hcourse, hsettings]
      rfl

end Config

namespace Program

variable {A : Arithmetic} {verbose : Bool} {path : String} {output word : Option String}
  {here : Location} {t : FileTree} {given : Config}

/-- What is left to do once there is a config with its word. -/
def drawing (A : Arithmetic) (verbose : Bool) (output : Option String) (c : Config) : Job :=
  match drawingOf c (plotOf A c), output with
  | .error f, _ => .finish (.failure verbose [] (noticesOf c (plotOf A c)) f)
  | .ok _, none => .finish (.failure verbose [] (noticesOf c (plotOf A c)) .noPath)
  | .ok text, some path => saving verbose (noticesOf c (plotOf A c)) path text [wrote path]

theorem run_render (hload : Loads t here path given) :
    (render A verbose path output word).run here t =
      match override word given with
      | .error f => (.failure verbose [] [] f, t)
      | .ok c => (drawing A verbose output c).run here t := by
  obtain ⟨bytes, hbytes, hconfig⟩ := hload
  unfold render
  rw [Job.run, hbytes]
  simp only [hconfig]
  cases override word given with
  | error f => rfl
  | ok c => rfl

theorem run_render_of_refused {v : Json} {e : ConfigFault} (hload : LoadsValue t here path v)
    (hv : Config.ofJson v = .error e) :
    (render A verbose path output word).run here t =
      (.failure verbose [] [] (.ofConfigFault e), t) := by
  obtain ⟨bytes, hbytes, hvalue⟩ := hload
  have hconfig : configOf path bytes = .error (.ofConfigFault e) := by
    rw [valueOf] at hvalue
    rw [configOf, configWith, hvalue]
    simp only [hv]
    rfl
  unfold render
  rw [Job.run, hbytes]
  simp only [hconfig, Job.run_finish]

/-- What `render` ended well with is the drawing of the config, under the path it was asked for. -/
theorem read_of_render_exit {v : Json} (hload : LoadsValue t here path v)
    (h : ((render A verbose path output none).run here t).1.ending = .exit 0) :
    ∃ c out drawing, Config.ofJson v = .ok c ∧ drawingOf c (plotOf A c) = .ok drawing ∧
      output = some out ∧
      ((render A verbose path output none).run here t).2.read here out =
        .ok (Utf8.encode drawing.toList) := by
  obtain ⟨given, c, drawing, out, hgiven, hword, hdrawing, rfl, hsave⟩ := render_ending.mp h
  obtain ⟨w, hw, hc⟩ := loads_iff.mp hgiven
  obtain rfl := hload.unique hw
  cases hword
  exact ⟨given, out, drawing, hc, hdrawing, rfl, read_of_render hgiven rfl hdrawing hsave⟩

end Program

/-- Giving a word to `render` beside an accepted config and writing it into the config come to the
same. If the text is a word, the two runs end with one report and one tree of files; when they end
well, the file under the output path holds the drawing of the edited config in either tree. If it is
none, both are refused with an error of the word that names where it stood, and leave the files as
they are. -/
theorem render_override_eq_edited (A : Arithmetic) (verbose : Bool) (output : Option String)
    {here : Location} {t : FileTree} {path path' text : String} {members edited : Registry Json}
    {given : Config} (hload : Program.LoadsValue t here path (.object members))
    (hgiven : Config.ofJson (.object members) = .ok given)
    (hload' : Program.LoadsValue t here path' (.object edited))
    (hedited : Config.IsEdited text members edited) :
    let overridden := (Program.render A verbose path output (some text)).run here t
    let written := (Program.render A verbose path' output none).run here t
    (∀ w, Word.parse text = .ok w → overridden = written) ∧
      (∀ w, Word.parse text = .ok w → overridden.1.ending = .exit 0 →
        ∃ c out drawing, Config.ofJson (.object edited) = .ok c ∧
          Program.drawingOf c (Program.plotOf A c) = .ok drawing ∧ output = some out ∧
          overridden.2.read here out = .ok (Utf8.encode drawing.toList) ∧
          written.2.read here out = .ok (Utf8.encode drawing.toList)) ∧
      ∀ e, Word.parse text = .error e →
        overridden = (.failure verbose [] [] (.config (.word "--word" e)), t) ∧
          written = (.failure verbose [] [] (.config (.word "word" e)), t) := by
  intro overridden written
  have hofMembers : Config.ofJson (.object edited) =
      (Config.readWord "word" text).map fun w => { given with word := w } :=
    Config.ofMembers_edited hedited hgiven
  have hoverridden : overridden = _ :=
    Program.run_render (Program.loads_iff.mpr ⟨_, hload, hgiven⟩)
  have hsame (w : Word) (hw : Word.parse text = .ok w) : overridden = written := by
    rw [Config.readWord, hw] at hofMembers
    have hwritten : written = _ :=
      Program.run_render (Program.loads_iff.mpr ⟨_, hload', hofMembers⟩)
    rw [hoverridden, hwritten, Program.override, Program.override, Config.readWord, hw]
    rfl
  refine ⟨hsame, ?_, ?_⟩
  · intro w hw hend
    rw [hsame w hw] at hend ⊢
    obtain ⟨c, out, drawing, hc, hdrawing, hout, hread⟩ := Program.read_of_render_exit hload' hend
    exact ⟨c, out, drawing, hc, hdrawing, hout, hread, hread⟩
  · intro e he
    rw [Config.readWord, he] at hofMembers
    refine ⟨?_, Program.run_render_of_refused hload' hofMembers⟩
    rw [hoverridden, Program.override, Config.readWord, he]
    rfl

/-- Two configs side by side, the second with the word that is given beside the first. -/
theorem render_override_eq_edited_corner :
    let members : Registry Json := [("word", .string "F")]
    let edited := members.put "word" (.string "F+F")
    let t : FileTree := ⟨[([['c']], .file (Utf8.encode (Json.object members).fileChars)),
      ([['d']], .file (Utf8.encode (Json.object edited).fileChars))]⟩
    let overridden := (Program.render straight.1 false "c" (some "o") (some "F+F")).run [] t
    let written := (Program.render straight.1 false "d" (some "o") none).run [] t
    (∃ given, Program.LoadsValue t [] "c" (.object members) ∧
      Config.ofJson (.object members) = .ok given ∧
      Program.LoadsValue t [] "d" (.object edited) ∧ Config.IsEdited "F+F" members edited) ∧
    overridden.1.ending = .exit 0 ∧ overridden = written ∧
    ∃ c drawing, Config.ofJson (.object edited) = .ok c ∧
      Program.drawingOf c (Program.plotOf straight.1 c) = .ok drawing ∧
      overridden.2.read [] "o" = .ok (Utf8.encode drawing.toList) ∧
      written.2.read [] "o" = .ok (Utf8.encode drawing.toList) := by
  intro members edited t overridden written
  have hkeys (text : String) : Json.HasDistinctKeys (.object [("word", .string text)]) :=
    .singleton (.string text)
  have hload : Program.LoadsValue t [] "c" (.object members) :=
    ⟨_, rfl, Program.valueWith_fileChars _ (hkeys "F") "c"⟩
  have hload' : Program.LoadsValue t [] "d" (.object edited) :=
    ⟨_, rfl, Program.valueWith_fileChars _ (hkeys "F+F") "d"⟩
  have hok : (Config.ofJson (.object members)).isOk = true := by decide +kernel
  have hword : (Word.parse "F+F").isOk = true := by decide +kernel
  cases hgiven : Config.ofJson (.object members) with
  | error e =>
    rw [hgiven] at hok
    cases hok
  | ok given =>
    cases hparse : Word.parse "F+F" with
    | error e =>
      rw [hparse] at hword
      cases hword
    | ok w =>
      have hedited := Config.isEdited_put "F+F" members
      have hend : overridden.1.ending = .exit 0 := Ending.eq_exit_of_code? (by decide +kernel)
      obtain ⟨hsame, hdrawn, _⟩ :=
        render_override_eq_edited straight.1 false (some "o") hload hgiven hload' hedited
      obtain ⟨c, out, drawing, hc, hdrawing, hout, hread, hread'⟩ := hdrawn w hparse hend
      cases hout
      exact ⟨⟨given, hload, rfl, hload', hedited⟩, hend, hsame w hparse, c, drawing, hc, hdrawing,
        hread, hread'⟩

end BracketTurtle
