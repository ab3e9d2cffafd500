import BracketTurtle.Drawing.Svg
import BracketTurtle.Proofs.MarkupReading
import BracketTurtle.Proofs.WrittenNumbers

/-!
# Reading polylines

The polylines of a document are read off its tags: the points of each are what stands between the
blanks of its attribute, two texts around one comma. A drawing reads back as the points of its
polylines, each coordinate as its text, whatever the title says; the colours and the other texts of
its style must only be free of what markup gives a meaning.
-/

namespace BracketTurtle
namespace Svg

open Markup

structure WrittenPoint where
  x : List Char
  y : List Char
deriving DecidableEq, Repr

def written (places : ℕ) (p : Point) : WrittenPoint :=
  ⟨(Number.placesText places p.x.toFloat).toList, (Number.placesText places p.y.toFloat).toList⟩

def readPoint (cs : List Char) : Option WrittenPoint :=
  match cs.splitOn ',' with
  | [x, y] => some ⟨x, y⟩
  | _ => none

def readPoints (cs : List Char) : Option (List WrittenPoint) := (cs.splitOn ' ').mapM readPoint

def polyline? (m : Mark) : Option Attributes :=
  match m.tag with
  | .empty name attributes | .opening name attributes =>
    if name = "polyline".toList then some attributes else none
  | _ => none

def readPolyline (attributes : Attributes) : Option (List WrittenPoint) :=
  (attributes.lookup "points".toList).bind readPoints

/-- The polylines of a document, in order; `none` when it is none or a polyline has no points. -/
def readPolylines (text : String) : Option (List (List WrittenPoint)) :=
  (Markup.read text).bind fun marks => (marks.filterMap polyline?).mapM readPolyline

/-! ## Points -/

theorem not_mem_placesText {places : ℕ} {x : Float} {c : Char}
    (hc : Number.isNumberChar c = false) : c ∉ (Number.placesText places x).toList := by
  intro h
  rw [Number.isNumberChar_of_mem_placesText h] at hc
  cases hc

theorem toList_pointText (places : ℕ) (p : Point) :
    (pointText places p).toList =
      [','].intercalate [(written places p).x, (written places p).y] := by
  simp [pointText, written, List.intercalate]

theorem splitOn_pointText (places : ℕ) (p : Point) :
    (pointText places p).toList.splitOn ',' = [(written places p).x, (written places p).y] := by
  have hcomma : ∀ l ∈ [(written places p).x, (written places p).y], ',' ∉ l := by
    intro l hl
    rcases List.mem_pair.mp hl with rfl | rfl
    · exact not_mem_placesText (by decide)
    · exact not_mem_placesText (by decide)
  rw [toList_pointText, List.splitOn_intercalate ',' hcomma (List.cons_ne_nil _ _)]

theorem readPoint_pointText (places : ℕ) (p : Point) :
    readPoint (pointText places p).toList = some (written places p) := by
  rw [readPoint, splitOn_pointText]

theorem not_mem_pointText {places : ℕ} {p : Point} {c : Char}
    (hc : Number.isNumberChar c = false) (hcomma : c ≠ ',') : c ∉ (pointText places p).toList := by
  simp [pointText, not_mem_placesText hc, hcomma]

theorem splitOn_pointsText {places : ℕ} {line : List Point} (h : line ≠ []) :
    (pointsText places line).toList.splitOn ' ' =
      (line.map (pointText places)).map String.toList := by
  have hblank : ∀ l ∈ (line.map (pointText places)).map String.toList, ' ' ∉ l := by
    intro l hl
    rw [List.map_map] at hl
    obtain ⟨p, _, rfl⟩ := List.mem_map.mp hl
    exact not_mem_pointText (by decide) (by decide)
  have hne : (line.map (pointText places)).map String.toList ≠ [] := by simpa using h
  have htext : (pointsText places line).toList =
      [' '].intercalate ((line.map (pointText places)).map String.toList) :=
    String.toList_intercalate
  rw [htext, List.splitOn_intercalate ' ' hblank hne]

theorem readPoints_pointsText {places : ℕ} {line : List Point} (h : line ≠ []) :
    readPoints (pointsText places line).toList = some (line.map (written places)) := by
  rw [readPoints, splitOn_pointsText h, List.map_map]
  apply mapM_map_eq_some
  intro p _
  exact readPoint_pointText places p

/-! ## Elements -/

/-- A text without the characters that markup gives a meaning. -/
def IsUnmarked (s : String) : Prop := ∀ c ∈ ['<', '>', '&', '"'], c ∉ s.toList

/-- Neither the style nor the background holds markup. -/
structure Settings.IsUnmarked (s : Settings) : Prop where
  stroke : Svg.IsUnmarked s.style.stroke
  fill : Svg.IsUnmarked s.style.fill
  lineCap : Svg.IsUnmarked s.style.lineCap
  lineJoin : Svg.IsUnmarked s.style.lineJoin
  background : ∀ b ∈ s.background, Svg.IsUnmarked b

instance (s : String) : Decidable (IsUnmarked s) :=
  List.decidableBAll (fun c => c ∉ s.toList) ['<', '>', '&', '"']

theorem Settings.isUnmarked_iff {s : Settings} :
    s.IsUnmarked ↔ Svg.IsUnmarked s.style.stroke ∧ Svg.IsUnmarked s.style.fill ∧
      Svg.IsUnmarked s.style.lineCap ∧ Svg.IsUnmarked s.style.lineJoin ∧
      ∀ b ∈ s.background, Svg.IsUnmarked b :=
  ⟨fun h => ⟨h.stroke, h.fill, h.lineCap, h.lineJoin, h.background⟩,
    fun ⟨h₁, h₂, h₃, h₄, h₅⟩ => ⟨h₁, h₂, h₃, h₄, h₅⟩⟩

instance (s : Settings) : Decidable s.IsUnmarked :=
  decidable_of_iff' _ Settings.isUnmarked_iff

theorem isPlain_of_isUnmarked {name value : String} (hname : IsName name)
    (h : IsUnmarked value) : IsPlain (name, value) :=
  ⟨hname, h '"' (by decide), h '<' (by decide)⟩

theorem isPlain_placesText {name : String} (hname : IsName name) (places : ℕ) (x : Float) :
    IsPlain (name, Number.placesText places x) :=
  ⟨hname, not_mem_placesText (by decide), not_mem_placesText (by decide)⟩

theorem isPlain_style (places : ℕ) {s : Settings} (h : s.IsUnmarked) :
    ∀ a ∈ s.style.attributes places, IsPlain a := by
  simp only [Style.attributes, List.forall_mem_cons]
  exact ⟨isPlain_of_isUnmarked (by decide) h.stroke, isPlain_placesText (by decide) _ _,
    isPlain_of_isUnmarked (by decide) h.fill, isPlain_of_isUnmarked (by decide) h.lineCap,
    isPlain_of_isUnmarked (by decide) h.lineJoin, List.forall_mem_nil _⟩

theorem isPlain_size {name : String} (hname : IsName name) (places : ℕ) (size : Option Float) :
    ∀ a ∈ sizeAttribute places name size, IsPlain a := by
  intro a ha
  cases size with
  | none => cases ha
  | some x =>
    by_cases hx : (x == 0) = true
    · simp [sizeAttribute, hx] at ha
    · simp only [sizeAttribute, if_neg hx, List.mem_singleton] at ha
      exact ha ▸ isPlain_placesText hname places x

theorem isPlain_frame (places : ℕ) (f : Frame) : ∀ a ∈ frameAttributes places f, IsPlain a := by
  simp only [frameAttributes, List.forall_mem_cons]
  exact ⟨isPlain_placesText (by decide) _ _, isPlain_placesText (by decide) _ _,
    isPlain_placesText (by decide) _ _, isPlain_placesText (by decide) _ _, List.forall_mem_nil _⟩

theorem not_mem_viewBox {places : ℕ} {f : Frame} {c : Char} (hc : Number.isNumberChar c = false)
    (hblank : c ≠ ' ') : c ∉ (viewBox places f).toList := by
  simp [viewBox, not_mem_placesText hc, hblank]

theorem not_mem_pointsText {places : ℕ} {line : List Point} {c : Char}
    (hc : Number.isNumberChar c = false) (hcomma : c ≠ ',') (hblank : c ≠ ' ') :
    c ∉ (pointsText places line).toList := by
  rw [pointsText, String.toList_intercalate, ← List.forall_mem_ne']
  apply forall_mem_intercalate
  · simpa using hblank.symm
  · intro l hl
    rw [List.map_map] at hl
    obtain ⟨p, _, rfl⟩ := List.mem_map.mp hl
    exact List.forall_mem_ne'.mpr (not_mem_pointText hc hcomma)

theorem isPlain_points (places : ℕ) (line : List Point) :
    IsPlain ("points", pointsText places line) := by
  have hname : IsName "points" := by decide
  exact ⟨hname, not_mem_pointsText (by decide) (by decide) (by decide),
    not_mem_pointsText (by decide) (by decide) (by decide)⟩

theorem isPlain_transform (places : ℕ) (f : Frame) :
    IsPlain ("transform", flipTransform places f) := by
  have hname : IsName "transform" := by decide
  have hfree (c : Char) (hc : Number.isNumberChar c = false)
      (hrest : c ∉ "translate(0,".toList ++ ") scale(1,-1)".toList) :
      c ∉ (flipTransform places f).toList := by
    intro h
    simp only [flipTransform, String.toList_append, List.mem_append] at h
    rcases h with (h | h) | h
    · exact hrest (List.mem_append_left _ h)
    · exact not_mem_placesText hc h
    · exact hrest (List.mem_append_right _ h)
  exact ⟨hname, hfree '"' (by decide) (by decide), hfree '<' (by decide) (by decide)⟩

theorem readable_polyline (places : ℕ) {s : Settings} (h : s.IsUnmarked) (line : List Point) :
    Readable (polylineElement places s.style line) := by
  refine .empty (by decide) (List.forall_mem_cons.mpr ⟨isPlain_points places line, ?_⟩)
  exact isPlain_style places h

theorem mem_preamble {places : ℕ} {f : Frame} {background title : Option String} {e : Element}
    (h : e ∈ preamble places f background title) :
    (∃ t, e = .text "title" [] t) ∨
      ∃ b ∈ background, e = .empty "rect" (frameAttributes places f ++ [("fill", b)]) := by
  rcases List.mem_append.mp h with h | h
  · left
    cases title with
    | none => cases h
    | some t =>
      by_cases ht : t.isEmpty = true
      · simp [ht] at h
      · simp only [if_neg ht, List.mem_singleton] at h
        exact ⟨t, h⟩
  · right
    cases background with
    | none => cases h
    | some b =>
      by_cases hb : paintsBackground b = true
      · simp only [if_pos hb, List.mem_singleton] at h
        exact ⟨b, rfl, h⟩
      · simp [hb] at h

theorem readable_element (places : ℕ) {s : Settings} (h : s.IsUnmarked) (title : Option String)
    (f : Frame) (lines : List (List Point)) : Readable (element places s title f lines) := by
  have hdrawn : ∀ e ∈ lines.map (polylineElement places s.style), Readable e := by
    intro e he
    obtain ⟨line, _, rfl⟩ := List.mem_map.mp he
    exact readable_polyline places h line
  have hroot : ∀ a ∈ [("xmlns", "http://www.w3.org/2000/svg"), ("version", "1.1"),
      ("viewBox", viewBox places f)], IsPlain a := by
    have hname : IsName "viewBox" := by decide
    simp only [List.forall_mem_cons]
    exact ⟨by decide, by decide, ⟨hname, not_mem_viewBox (by decide) (by decide),
      not_mem_viewBox (by decide) (by decide)⟩, List.forall_mem_nil _⟩
  refine .group (by decide) ?_ ?_
  · intro a ha
    rcases List.mem_append.mp ha with ha | ha
    · rcases List.mem_append.mp ha with ha | ha
      · exact hroot a ha
      · exact isPlain_size (by decide) places _ a ha
    · exact isPlain_size (by decide) places _ a ha
  · intro e he
    rcases List.mem_append.mp he with he | he
    · rcases mem_preamble he with ⟨t, rfl⟩ | ⟨b, hb, rfl⟩
      · exact .text t (by decide) (List.forall_mem_nil _)
      · refine .empty (by decide) ?_
        intro a ha
        rcases List.mem_append.mp ha with ha | ha
        · exact isPlain_frame places f a ha
        · obtain rfl := List.mem_singleton.mp ha
          exact isPlain_of_isUnmarked (by decide) (h.background b hb)
    · by_cases hflip : s.flip = true
      · rw [if_pos hflip, List.mem_singleton] at he
        subst he
        exact .group (by decide) (List.forall_mem_singleton.mpr (isPlain_transform places f)) hdrawn
      · rw [if_neg hflip] at he
        exact hdrawn e he

/-! ## Documents -/

theorem childMarks_append (depth : ℕ) (es fs : List Element) :
    childMarks depth (es ++ fs) = childMarks depth es ++ childMarks depth fs := by
  induction es with
  | nil => rfl
  | cons e es ih => rw [List.cons_append, childMarks, childMarks, ih, List.append_assoc]

theorem filterMap_preamble (depth : ℕ) (places : ℕ) (f : Frame)
    (background title : Option String) :
    (childMarks depth (preamble places f background title)).filterMap polyline? = [] := by
  have htitle : "title".toList ≠ "polyline".toList := by decide
  have hrect : "rect".toList ≠ "polyline".toList := by decide
  suffices h : ∀ es : List Element, (∀ e ∈ es, e ∈ preamble places f background title) →
      (childMarks depth es).filterMap polyline? = [] from h _ fun e he => he
  intro es hes
  induction es with
  | nil => rfl
  | cons e es ih =>
    rw [childMarks, List.filterMap_append, ih fun d hd => hes d (List.mem_cons_of_mem e hd)]
    rcases mem_preamble (hes e List.mem_cons_self) with ⟨t, rfl⟩ | ⟨b, _, rfl⟩
    · simp only [marks, List.filterMap_cons, polyline?, if_neg htitle, List.filterMap_nil,
        List.append_nil]
    · simp only [marks, List.filterMap_cons, polyline?, if_neg hrect, List.filterMap_nil,
        List.append_nil]

theorem filterMap_drawn (depth places : ℕ) (style : Style) (lines : List (List Point)) :
    (childMarks depth (lines.map (polylineElement places style))).filterMap polyline? =
      lines.map fun line =>
        ((("points", pointsText places line) :: style.attributes places).map charsOf) := by
  induction lines with
  | nil => rfl
  | cons line lines ih =>
    rw [List.map_cons, childMarks, List.filterMap_append, ih, List.map_cons]
    simp only [marks, polylineElement, List.filterMap_cons, polyline?, if_pos, List.filterMap_nil,
      List.singleton_append]

/-- The polyline tags of a drawing are those of its polylines, flipped or not. -/
theorem filterMap_element (places : ℕ) (s : Settings) (title : Option String) (f : Frame)
    (lines : List (List Point)) (text : List Char) :
    (marks 0 text (element places s title f lines)).filterMap polyline? =
      lines.map fun line =>
        ((("points", pointsText places line) :: s.style.attributes places).map charsOf) := by
  have hsvg : "svg".toList ≠ "polyline".toList := by decide
  have hg : "g".toList ≠ "polyline".toList := by decide
  have hdrawn (depth : ℕ) := filterMap_drawn depth places s.style lines
  rw [element, marks, childMarks_append, List.cons_append, List.filterMap_cons]
  simp only [polyline?, if_neg hsvg, List.filterMap_append, filterMap_preamble, List.nil_append,
    List.filterMap_cons, List.filterMap_nil, List.append_nil]
  by_cases hflip : s.flip = true
  · rw [if_pos hflip, childMarks, childMarks, marks]
    simp only [List.cons_append, List.filterMap_cons, polyline?, if_neg hg, List.filterMap_append,
      List.filterMap_nil, List.append_nil]
    exact hdrawn _
  · rw [if_neg hflip]
    exact hdrawn _

theorem readPolylines_element (places : ℕ) {s : Settings} (h : s.IsUnmarked) (title : Option String)
    (f : Frame) {lines : List (List Point)} (hlines : ∀ l ∈ lines, l ≠ []) :
    readPolylines (element places s title f lines).document =
      some (lines.map fun l => l.map (written places)) := by
  unfold readPolylines
  rw [read_document (readable_element places h title f lines), Option.bind_some,
    List.filterMap_cons]
  simp only [polyline?, filterMap_element]
  apply mapM_map_eq_some
  intro line hline
  have hlookup : ((("points", pointsText places line) :: s.style.attributes places).map
      charsOf).lookup "points".toList = some (pointsText places line).toList := by
    rw [List.map_cons, charsOf, List.lookup_cons_self]
  rw [readPolyline, hlookup, Option.bind_some, readPoints_pointsText (hlines line hline)]

end Svg
end BracketTurtle
