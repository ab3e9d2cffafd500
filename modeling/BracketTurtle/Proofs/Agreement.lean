import BracketTurtle.Proofs.ConfigChecks
import BracketTurtle.Proofs.Depths
import BracketTurtle.Proofs.Fidelity
import BracketTurtle.Proofs.PlainArguments
import BracketTurtle.Proofs.RoundTrips

/-!
# Agreement of the commands

`validate` and `render` judge a config alike up to the frame of the drawing. What `render` draws
`validate` accepts; what `validate` accepts is drawn if something drawn has a length and if the
bounds with the margin have a width and a height, and is refused by `render` otherwise. That holds
of configs whose strings are texts: a drawing with half of a pair in it has no bytes.
-/

namespace BracketTurtle

theorem exists_bounds {lines : List (List Point)} (h : lines ≠ []) (hne : ∀ l ∈ lines, l ≠ []) :
    ∃ b, bounds lines = .ok b := by
  obtain ⟨line, rest, rfl⟩ := List.exists_cons_of_ne_nil h
  obtain ⟨p, ps, rfl⟩ := List.exists_cons_of_ne_nil (hne line List.mem_cons_self)
  exact ⟨_, rfl⟩

theorem Svg.exists_frame {margin : Float} {b : Bounds} :
    (∃ f, frame margin b = .ok f) ↔
      0 < b.right.toFloat + margin - (b.left.toFloat - margin) ∧
        0 < b.bottom.toFloat + margin - (b.top.toFloat - margin) := by
  unfold frame
  simp only [Frame.width, Frame.height]
  split_ifs with h
  · simp [h]
  · simp [h]

namespace Program

/-- Something drawn has a length. -/
def HasLength (A : Arithmetic) (c : Config) : Prop :=
  ∃ s ∈ (c.course.run A c.word c.start).segments, s.isDot = false

/-- The bounds with the margin have a width and a height. -/
def HasRoom (A : Arithmetic) (c : Config) : Prop :=
  ∀ b, bounds (linesOf A c) = .ok b →
    0 < b.right.toFloat + c.svg.margin - (b.left.toFloat - c.svg.margin) ∧
      0 < b.bottom.toFloat + c.svg.margin - (b.top.toFloat - c.svg.margin)

structure IsDrawable (A : Arithmetic) (c : Config) : Prop where
  hasLength : HasLength A c
  hasRoom : HasRoom A c

theorem linesOf_ne_nil_iff {c : Config} : linesOf A c ≠ [] ↔ HasLength A c := by
  rw [linesOf, ne_eq, Surface.polylines_eq_nil_iff]
  simp [HasLength]

theorem exists_bounds_linesOf {c : Config} (h : linesOf A c ≠ []) :
    ∃ b, bounds (linesOf A c) = .ok b := by
  apply exists_bounds h
  intro l hl
  exact ne_nil_of_mem_linesOf hl

theorem isChecked_of_loads {t : FileTree} {here : Location} {path : String} {c : Config}
    (h : Loads t here path c) : Config.IsChecked c.svg := by
  obtain ⟨bytes, _, hconfig⟩ := h
  unfold configOf configWith at hconfig
  split at hconfig
  · cases hconfig
  · exact Config.isChecked_of_ofJson (mapError_eq_ok.mp hconfig)

theorem exists_document_iff {c : Config} (hplaces : 0 ≤ c.svg.places) :
    (∃ text, Svg.document c.svg (some c.name) (linesOf A c) = .ok text) ↔ IsDrawable A c := by
  constructor
  · rintro ⟨text, htext⟩
    obtain ⟨b, f, hb, hf, _, _⟩ := Svg.document_eq_ok.mp htext
    refine ⟨linesOf_ne_nil_iff.mp ?_, ?_⟩
    · intro hnil
      rw [hnil, bounds_nil] at hb
      cases hb
    · intro b' hb'
      cases hb.symm.trans hb'
      exact Svg.exists_frame.mp ⟨f, hf⟩
  · intro h
    obtain ⟨b, hb⟩ := exists_bounds_linesOf (linesOf_ne_nil_iff.mpr h.hasLength)
    obtain ⟨f, hf⟩ := Svg.exists_frame.mpr (h.hasRoom b hb)
    exact ⟨_, Svg.document_eq_ok.mpr ⟨b, f, hb, hf, hplaces, rfl⟩⟩

section

variable {verbose : Bool} {config out : String} {here : Location} {t : FileTree} {c : Config}

theorem render_of_isDrawable (hload : Loads t here config c)
    (hfault : (c.course.run A c.word c.start).fault = none) (h : IsDrawable A c)
    (hsave : ∀ bytes, (t.save here out bytes).2 = .ok ()) :
    ((render A verbose config (some out) none).run here t).1.ending = .exit 0 := by
  obtain ⟨text, hdocument⟩ := (exists_document_iff (isChecked_of_loads hload).places.1).mpr h
  exact render_ending.mpr ⟨c, c, text, out, hload, rfl, drawingOf_eq_ok.mpr ⟨hfault, hdocument⟩,
    rfl, hsave _⟩

end

end Program

end BracketTurtle
