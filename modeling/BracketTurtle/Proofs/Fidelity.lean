import BracketTurtle.Proofs.Endings
import BracketTurtle.Proofs.Plotting
import BracketTurtle.Proofs.SavedFiles
import BracketTurtle.Proofs.SvgReading
import BracketTurtle.Proofs.Utf8Texts

/-!
# Fidelity

What a drawing shows is what the run drew. The file that `render` leaves holds, along its polylines,
the segments of the run in their order, each with the texts of its ends; only those without length
are missing, and nothing else is there.
-/

namespace BracketTurtle

theorem Svg.document_eq_ok {s : Settings} {title : Option String} {lines : List (List Point)}
    {text : String} :
    document s title lines = .ok text ↔
      ∃ b f, bounds lines = .ok b ∧ frame s.margin b = .ok f ∧ 0 ≤ s.places ∧
        text = (element s.places.toNat s title f lines).document := by
  unfold document
  cases hb : bounds lines with
  | error e => simp [bind, Except.bind]
  | ok b =>
    cases hf : frame s.margin b with
    | error e => simp [hf, bind, Except.bind]
    | ok f =>
      by_cases hplaces : s.places < 0
      · simp [hf, bind, Except.bind, hplaces, throw, throwThe, MonadExceptOf.throw]
      · simp [hf, bind, Except.bind, hplaces, pure, Except.pure, Int.not_lt.mp hplaces, eq_comm]

/-- Snapped coordinates are pixels, others are doubles. -/
def Coordinate.IsOfKind (snap : Bool) : Coordinate → Prop
  | .pixel _ => snap = true
  | .exact _ => snap = false

def Point.IsOfKind (snap : Bool) (p : Point) : Prop := p.x.IsOfKind snap ∧ p.y.IsOfKind snap

theorem Course.isOfKind_of_point {A : Arithmetic} {c : Course} {p : Pen} {a : Point}
    (h : c.point A p = .ok a) : a.IsOfKind c.snap := by
  unfold point at h
  split_ifs at h with _ hsnap
  · split at h
    · cases h
      exact ⟨hsnap, hsnap⟩
    · cases h
  · cases h
    have hsnap : c.snap = false := by simpa using hsnap
    exact ⟨hsnap, hsnap⟩

theorem isOfKind_of_run {A : Arithmetic} {c : Course} {w : Word} {start : Pen} {s : Segment}
    (h : s ∈ (c.run A w start).segments) : s.start.IsOfKind c.snap ∧ s.stop.IsOfKind c.snap := by
  obtain ⟨p, q, hstroke⟩ := exists_stroke_of_run h
  obtain ⟨hstart, _, hstop⟩ := Course.stroke_eq_ok hstroke
  exact ⟨Course.isOfKind_of_point hstart, Course.isOfKind_of_point hstop⟩

theorem Coordinate.placesText_congr {snap : Bool} {c d : Coordinate} (hc : c.IsOfKind snap)
    (hd : d.IsOfKind snap) (h : c.same d = true) (places : ℕ) :
    Number.placesText places c.toFloat = Number.placesText places d.toFloat := by
  cases c with
  | pixel m =>
    cases d with
    | pixel n =>
      have hmn : m = n := by simpa [same] using h
      rw [hmn]
    | exact y => cases (hc : snap = true).symm.trans hd
  | exact x =>
    cases d with
    | pixel n => cases (hc : snap = false).symm.trans hd
    | exact y =>
      obtain ⟨v, hx, hy⟩ := same_iff.mp h
      exact Number.placesText_congr hx hy places

theorem Svg.written_congr {snap : Bool} {p q : Point} (hp : p.IsOfKind snap)
    (hq : q.IsOfKind snap) (h : p.same q = true) (places : ℕ) :
    written places p = written places q := by
  obtain ⟨hx, hy⟩ := Bool.and_eq_true_iff.mp h
  unfold written
  rw [Coordinate.placesText_congr hp.1 hq.1 hx, Coordinate.placesText_congr hp.2 hq.2 hy]

theorem Program.length_of_mem_linesOf {A : Arithmetic} {c : Config} {l : List Point}
    (h : l ∈ linesOf A c) : 2 ≤ l.length :=
  Surface.length_of_mem_polylines h

theorem Program.ne_nil_of_mem_linesOf {A : Arithmetic} {c : Config} {l : List Point}
    (h : l ∈ linesOf A c) : l ≠ [] := by
  rintro rfl
  exact absurd (length_of_mem_linesOf h) (by simp)

/-- The polylines of a config, as they are written, are the segments of its run that have a
length. -/
theorem consecutivePairs_linesOf (A : Arithmetic) (c : Config) (places : ℕ) :
    ((Program.linesOf A c).map fun l => l.map (Svg.written places)).flatMap
        List.consecutivePairs =
      ((c.course.run A c.word c.start).segments.filter fun s => !s.isDot).map fun s =>
        (Svg.written places s.start, Svg.written places s.stop) := by
  have hcongr : ∀ p q : Point, p.IsOfKind c.course.snap → q.IsOfKind c.course.snap →
      p.same q = true → Svg.written places p = Svg.written places q := by
    intro p q hp hq h
    exact Svg.written_congr hp hq h places
  have hkind : ∀ s ∈ (c.course.run A c.word c.start).segments,
      s.start.IsOfKind c.course.snap ∧ s.stop.IsOfKind c.course.snap := by
    intro s hs
    exact isOfKind_of_run hs
  rw [← Surface.map_consecutivePairs_polylines hcongr hkind, List.map_flatMap, List.flatMap_map]
  simp only [consecutivePairs_map]
  rfl

/-- Whatever `render` is asked for, when it ends well the file it names holds a document. Along the
polylines of the document stand the segments of the run that have a length, in their order, each
with the texts of its ends; and no polyline has fewer than two points. -/
theorem render_faithful (A : Arithmetic) (fresh : ℤ) (here : Location) (t : FileTree)
    (arguments : List String) (verbose : Bool) (config : String) (output word : Option String)
    (hread : CommandLine.read arguments = .accepted ⟨verbose, .render config output word⟩)
    (hok : ((Program.job A fresh arguments).run here t).1.ending = .exit 0) :
    ∃ given c path places file text,
      Program.Loads t here config given ∧ Program.override word given = .ok c ∧
      output = some path ∧ c.svg.places = (places : ℕ) ∧
      ((Program.job A fresh arguments).run here t).2.read here path = .ok file ∧
      Utf8.decode file = .ok text ∧
      (c.course.run A c.word c.start).fault = none ∧
      (c.svg.IsUnmarked →
        ∃ lines, Svg.readPolylines (String.ofList text) = some lines ∧
          lines.flatMap List.consecutivePairs =
            ((c.course.run A c.word c.start).segments.filter fun s => !s.isDot).map (fun s =>
              (Svg.written places s.start, Svg.written places s.stop)) ∧
          ∀ l ∈ lines, 2 ≤ l.length) := by
  have hjob : Program.job A fresh arguments = Program.render A verbose config output word := by
    simp only [Program.job, hread, Program.perform]
  rw [hjob] at hok ⊢
  obtain ⟨given, c, text, path, hload, hword, htext, rfl, hsave⟩ := Program.render_ending.mp hok
  obtain ⟨hfault, hdocument⟩ := Program.drawingOf_eq_ok.mp htext
  obtain ⟨b, f, _, _, hplaces, rfl⟩ := Svg.document_eq_ok.mp hdocument
  refine ⟨given, c, path, c.svg.places.toNat, _, _, hload, hword, rfl,
    (Int.toNat_of_nonneg hplaces).symm, Program.read_of_render hload hword htext hsave,
    Utf8.decode_encode _, hfault, ?_⟩
  intro hunmarked
  refine ⟨_, ?_, consecutivePairs_linesOf A c c.svg.places.toNat, ?_⟩
  · rw [String.ofList_toList]
    exact Svg.readPolylines_element _ hunmarked (some c.name) f fun l hl =>
      Program.ne_nil_of_mem_linesOf hl
  · intro l hl
    obtain ⟨line, hline, rfl⟩ := List.mem_map.mp hl
    rw [List.length_map]
    exact Program.length_of_mem_linesOf hline

theorem render_faithful_branch :
    let text := "\x7b\"word\": \"F[F]F\"\x7d"
    let ran := (Program.job straight.1 0 ["render", "c", "o"]).run [] (Program.onlyConfig text)
    CommandLine.read ["render", "c", "o"] =
        .accepted ⟨false, .render "c" (some "o") none⟩ ∧
      ran.1.ending = .exit 0 ∧
      ∃ c places file drawing lines,
        Program.Loads (Program.onlyConfig text) [] "c" c ∧ ran.2.read [] "o" = .ok file ∧
        Utf8.decode file = .ok drawing ∧
        Svg.readPolylines (String.ofList drawing) = some lines ∧
        lines.flatMap List.consecutivePairs =
          ((c.course.run straight.1 c.word c.start).segments.filter fun s => !s.isDot).map fun s =>
            (Svg.written places s.start, Svg.written places s.stop) := by
  intro text ran
  have hread : CommandLine.read ["render", "c", "o"] =
      .accepted ⟨false, .render "c" (some "o") none⟩ := by decide +kernel
  have hok : ran.1.ending = .exit 0 := Ending.eq_exit_of_code? (by decide +kernel)
  have hplain : (match Program.configOf "c" (Utf8.encode text.toList) with
      | .ok c => decide c.svg.IsUnmarked
      | .error _ => false) = true := by decide +kernel
  obtain ⟨given, c, path, places, file, drawing, ⟨bytes, hfile, hconfig⟩, hword, hpath, _, hback,
    hdecode, _, hlines⟩ := render_faithful straight.1 0 [] (Program.onlyConfig text) _ false "c"
      (some "o") none hread hok
  obtain rfl : given = c := Except.ok.inj hword
  obtain rfl : "o" = path := Option.some.inj hpath
  obtain rfl : Utf8.encode text.toList = bytes :=
    Except.ok.inj ((Program.read_onlyConfig text).symm.trans hfile)
  rw [hconfig] at hplain
  obtain ⟨lines, hread', hpairs, _⟩ := hlines (of_decide_eq_true hplain)
  exact ⟨hread, hok, given, places, file, drawing, lines, ⟨_, hfile, hconfig⟩, hback, hdecode,
    hread', hpairs⟩

end BracketTurtle
