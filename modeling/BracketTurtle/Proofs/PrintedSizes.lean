import BracketTurtle.Proofs.Agreement
import BracketTurtle.Proofs.WrittenDecimals

/-!
# Printed sizes

The numbers of a drawing are printed as decimals, and the sizes of its frame are above zero before
they are printed. What becomes of them then hangs on the frame: a size is printed as a decimal above
zero if it is finite and more than half a unit of the last place printed. All else that a drawing
prints is finite, but for the line in which a drawing is flipped, which may be beyond the doubles.
-/

namespace BracketTurtle
namespace Number

/-! ## Printed numbers -/

def IsDecimal (cs : List Char) : Prop := ∃ d, Numeral.read? cs = some d

def IsPositiveDecimal (cs : List Char) : Prop := ∃ d, Numeral.read? cs = some d ∧ 0 < d.value

/-- A finite number of more than half a unit of the last place. -/
def OutlastsRounding (places : ℕ) (x : Float) : Prop :=
  ∃ q, value? x = some (.ofRat q) ∧ 1 / 2 < q * 10 ^ places

instance (cs : List Char) : Decidable (IsPositiveDecimal cs) :=
  decidable_of_iff ((Numeral.read? cs).any fun d => decide (0 < d.value)) (by
    simp [IsPositiveDecimal, Option.any_eq_true])

theorem OutlastsRounding.isFinite {places : ℕ} {x : Float} (h : OutlastsRounding places x) :
    x.isFinite = true := by
  obtain ⟨q, hq, _⟩ := h
  exact isFinite_iff.mpr ⟨q, hq⟩

theorem isDecimal_placesText_iff {places : ℕ} {x : Float} :
    IsDecimal (placesText places x).toList ↔ x.isFinite = true := by
  rw [isFinite_iff]
  constructor
  · rintro ⟨d, hd⟩
    by_contra hx
    have hne : (x == 0) = false := by
      rw [Bool.eq_false_iff]
      exact fun hzero => hx ⟨0, beq_zero_iff.mp hzero⟩
    rw [placesText, String.toList_ofList, placesChars, hne] at hd
    cases hexact : exact x with
    | notANumber =>
      simp only [Bool.false_eq_true, if_false, hexact] at hd
      cases hd
    | infinite negative =>
      simp only [Bool.false_eq_true, if_false, hexact] at hd
      cases negative <;> cases hd
    | finite negative a => exact hx ⟨_, congrArg Exact.value? hexact⟩
  · rintro ⟨q, hq⟩
    exact ⟨_, read?_placesText places hq⟩

theorem isPositiveDecimal_placesText_iff {places : ℕ} {x : Float} :
    IsPositiveDecimal (placesText places x).toList ↔ OutlastsRounding places x := by
  have hvalue (q : ℚ) : 0 < (Numeral.ofUnits places (roundEven (q * 10 ^ places))).value ↔
      1 / 2 < q * 10 ^ places := by
    rw [Numeral.value_ofUnits, div_pos_iff_of_pos_right (by positivity), Int.cast_pos,
      roundEven_pos_iff]
  constructor
  · rintro ⟨d, hd, hpos⟩
    obtain ⟨q, hq⟩ := isFinite_iff.mp (isDecimal_placesText_iff.mp ⟨d, hd⟩)
    rw [read?_placesText places hq, Option.some_inj] at hd
    exact ⟨q, hq, (hvalue q).mp (hd ▸ hpos)⟩
  · rintro ⟨q, hq, hlarge⟩
    exact ⟨_, read?_placesText places hq, (hvalue q).mpr hlarge⟩

instance (places : ℕ) (x : Float) : Decidable (OutlastsRounding places x) :=
  decidable_of_iff (IsPositiveDecimal (placesText places x).toList) isPositiveDecimal_placesText_iff

end Number

open Number

/-! ## Coordinates -/

theorem isFinite_ofInt_of_roundHalfUp {cos sin : Float → Float} {v : Float} {n : ℤ}
    (hv : v.isFinite = true) (h : roundHalfUp (.rounded cos sin) v = .ok n) :
    (Float.ofInt n).isFinite = true := by
  obtain ⟨r, hr⟩ := isFinite_iff.mp (isFinite_add_half hv)
  obtain rfl : ⌊r⌋ = n := Except.ok.inj ((roundHalfUp_eq_floor cos sin hr).symm.trans h)
  have hfloor : |(⌊r⌋ : ℚ)| ≤ |r| + 1 := by
    have hlow := Int.floor_le r
    have hhigh := Int.lt_floor_add_one r
    rw [abs_le]
    constructor
    · linarith [neg_abs_le r]
    · linarith [le_abs_self r]
  have hlimit := abs_add_le_limit hr
  have hlast := one_lt_halfPlace
  exact isFinite_ofInt (by linarith)

def Point.IsPrintable (p : Point) : Prop :=
  p.x.toFloat.isFinite = true ∧ p.y.toFloat.isFinite = true

theorem Course.isPrintable_of_point {cos sin : Float → Float} {c : Course} {p : Pen} {a : Point}
    (h : c.point (.rounded cos sin) p = .ok a) : a.IsPrintable := by
  unfold point at h
  split_ifs at h with hfinite hsnap
  · obtain ⟨hx, hy⟩ := Bool.and_eq_true_iff.mp hfinite
    obtain ⟨m, hm⟩ := roundHalfUp_of_isFinite cos sin hx
    obtain ⟨n, hn⟩ := roundHalfUp_of_isFinite cos sin hy
    have hpixel : p.pixel (.rounded cos sin) = .ok (m, n) := by
      rw [Pen.pixel, hm, hn]
      rfl
    rw [hpixel] at h
    cases h
    exact ⟨isFinite_ofInt_of_roundHalfUp hx hm, isFinite_ofInt_of_roundHalfUp hy hn⟩
  · cases h
    exact Bool.and_eq_true_iff.mp hfinite

theorem Program.isPrintable_of_mem_linesOf {cos sin : Float → Float} {c : Config}
    {line : List Point} (hline : line ∈ linesOf (.rounded cos sin) c) :
    ∀ a ∈ line, a.IsPrintable := by
  refine Surface.forall_mem_polylines (fun s hs => ?_) line hline
  obtain ⟨p, q, hstroke⟩ := exists_stroke_of_run hs
  obtain ⟨hstart, _, hstop⟩ := Course.stroke_eq_ok hstroke
  exact ⟨Course.isPrintable_of_point hstart, Course.isPrintable_of_point hstop⟩

/-! ## The attributes of a tree -/

namespace Element

def attributes : Element → List (String × String)
  | .empty _ as | .text _ as _ | .group _ as _ => as

mutual

/-- The attributes of an element and of all elements in it. -/
def allAttributes : Element → List (String × String)
  | .empty _ as | .text _ as _ => as
  | .group _ as es => as ++ childAttributes es

def childAttributes : List Element → List (String × String)
  | [] => []
  | e :: es => allAttributes e ++ childAttributes es

end

theorem forall_mem_childAttributes {P : String × String → Prop} {es : List Element} :
    (∀ a ∈ childAttributes es, P a) ↔ ∀ e ∈ es, ∀ a ∈ e.allAttributes, P a := by
  induction es with
  | nil => simp [childAttributes]
  | cons e es ih => rw [childAttributes, List.forall_mem_append, List.forall_mem_cons, ih]

end Element

namespace Svg

/-! ## The numbers of a drawing -/

def numberKeys : List String := ["x", "y", "width", "height", "stroke-width"]

/-- The attributes that hold numbers. -/
def measuringKeys : List String := "viewBox" :: "points" :: "transform" :: numberKeys

/-- The texts in an attribute that stand for numbers of the drawing. -/
def numberTexts : String × String → List (List Char)
  | ("viewBox", text) => text.toList.splitOn ' '
  | ("points", text) => (text.toList.splitOn ' ').flatMap fun point => point.splitOn ','
  | ("transform", text) => [(text.toList.drop "translate(0,".length).takeWhile (· ≠ ')')]
  | (key, text) => if key ∈ numberKeys then [text.toList] else []

/-- What an attribute says of numbers, it says in decimals. -/
def PrintsDecimals (a : String × String) : Prop := ∀ cs ∈ numberTexts a, IsDecimal cs

/-- The numbers of a drawing are decimals, and its sizes are above zero: those of the view box, and
those that the settings ask for. -/
structure IsSized (s : Settings) (root : Element) : Prop where
  decimals : ∀ a ∈ root.allAttributes, PrintsDecimals a
  viewBox : ∃ text x y width height, root.attributes.lookup "viewBox" = some text ∧
    text.toList.splitOn ' ' = [x, y, width, height] ∧ IsPositiveDecimal width ∧
      IsPositiveDecimal height
  width : s.width.isSome = true →
    ∃ text, root.attributes.lookup "width" = some text ∧ IsPositiveDecimal text.toList
  height : s.height.isSome = true →
    ∃ text, root.attributes.lookup "height" = some text ∧ IsPositiveDecimal text.toList

variable {places : ℕ} {f : Frame}

structure Frame.IsFinite (f : Frame) : Prop where
  left : f.left.isFinite = true
  top : f.top.isFinite = true
  width : f.width.isFinite = true
  height : f.height.isFinite = true

theorem splitOn_viewBox (places : ℕ) (f : Frame) :
    (viewBox places f).toList.splitOn ' ' =
      [(placesText places f.left).toList, (placesText places f.top).toList,
        (placesText places f.width).toList, (placesText places f.height).toList] := by
  have hblank (x : Float) : ' ' ∉ (placesText places x).toList := not_mem_placesText (by decide)
  rw [viewBox, String.toList_intercalate]
  apply List.splitOn_intercalate ' ' _ (List.cons_ne_nil _ _)
  simp [hblank]

theorem printsDecimals_viewBox (h : f.IsFinite) : PrintsDecimals ("viewBox", viewBox places f) := by
  have htexts : numberTexts ("viewBox", viewBox places f) = _ := splitOn_viewBox places f
  rw [PrintsDecimals, htexts]
  simp [isDecimal_placesText_iff, h.left, h.top, h.width, h.height]

theorem printsDecimals_number_iff {key : String} (hkey : key ∈ numberKeys) {x : Float} :
    PrintsDecimals (key, placesText places x) ↔ x.isFinite = true := by
  have htexts (text : String) : numberTexts (key, text) = [text.toList] := by
    simp only [numberKeys, List.mem_cons, List.not_mem_nil, or_false] at hkey
    rcases hkey with rfl | rfl | rfl | rfl | rfl <;> rfl
  rw [PrintsDecimals, htexts, List.forall_mem_singleton, isDecimal_placesText_iff]

theorem printsDecimals_transform_iff :
    PrintsDecimals ("transform", flipTransform places f) ↔ (f.top + f.bottom).isFinite = true := by
  have hdigits : ∀ c ∈ (placesText places (f.top + f.bottom)).toList, decide (c ≠ ')') = true := by
    intro c hc
    refine decide_eq_true ?_
    rintro rfl
    exact not_mem_placesText (by decide) hc
  have htexts : numberTexts ("transform", flipTransform places f) =
      [(placesText places (f.top + f.bottom)).toList] := by
    have hunfold (text : String) : numberTexts ("transform", text) =
        [(text.toList.drop "translate(0,".length).takeWhile (· ≠ ')')] := rfl
    have hlength : "translate(0,".length = "translate(0,".toList.length := rfl
    rw [hunfold, flipTransform, String.toList_append, String.toList_append, List.append_assoc,
      hlength, List.drop_left, List.takeWhile_append_of_pos hdigits]
    have hrest : (") scale(1,-1)".toList).takeWhile (· ≠ ')') = [] := by decide
    rw [hrest, List.append_nil]
  rw [PrintsDecimals, htexts, List.forall_mem_singleton, isDecimal_placesText_iff]

theorem printsDecimals_points {line : List Point} (hne : line ≠ [])
    (h : ∀ p ∈ line, p.IsPrintable) : PrintsDecimals ("points", pointsText places line) := by
  have htexts : numberTexts ("points", pointsText places line) =
      ((pointsText places line).toList.splitOn ' ').flatMap fun point => point.splitOn ',' := rfl
  rw [PrintsDecimals, htexts, splitOn_pointsText hne]
  intro cs hcs
  rw [List.map_map, List.flatMap_map, List.mem_flatMap] at hcs
  obtain ⟨p, hp, hcs⟩ := hcs
  rw [Function.comp_apply, splitOn_pointText, List.mem_pair] at hcs
  rcases hcs with rfl | rfl
  · exact isDecimal_placesText_iff.mpr (h p hp).1
  · exact isDecimal_placesText_iff.mpr (h p hp).2

theorem printsDecimals_of_not_mem {key text : String} (hkey : key ∉ measuringKeys) :
    PrintsDecimals (key, text) := by
  have htexts : numberTexts (key, text) = [] := by
    simp only [measuringKeys, List.mem_cons, not_or] at hkey
    obtain ⟨hbox, hpoints, htransform, hnumber⟩ := hkey
    unfold numberTexts
    split
    · rename_i heq
      exact absurd (Prod.mk.inj heq).1 hbox
    · rename_i heq
      exact absurd (Prod.mk.inj heq).1 hpoints
    · rename_i heq
      exact absurd (Prod.mk.inj heq).1 htransform
    · rename_i heq
      obtain ⟨rfl, rfl⟩ := Prod.mk.inj heq
      exact if_neg hnumber
  rw [PrintsDecimals, htexts]
  exact List.forall_mem_nil _

/-! ## Drawings -/

theorem Frame.isFinite_of_size (hwidth : f.width.isFinite = true)
    (hheight : f.height.isFinite = true) : f.IsFinite :=
  ⟨(isFinite_of_sub hwidth).2, (isFinite_of_sub hheight).2, hwidth, hheight⟩

section

variable {s : Settings} {title : Option String} {lines : List (List Point)}

inductive IsAttribute (places : ℕ) (s : Settings) (f : Frame) (lines : List (List Point)) :
    String × String → Prop
  | plain {key text : String} : key ∉ measuringKeys → IsAttribute places s f lines (key, text)
  | viewBox : IsAttribute places s f lines ("viewBox", viewBox places f)
  | frame {a : String × String} : a ∈ frameAttributes places f → IsAttribute places s f lines a
  | width {x : Float} : x ∈ s.width → IsAttribute places s f lines ("width", placesText places x)
  | height {x : Float} : x ∈ s.height → IsAttribute places s f lines ("height", placesText places x)
  | transform : s.flip = true →
      IsAttribute places s f lines ("transform", flipTransform places f)
  | strokeWidth :
      IsAttribute places s f lines ("stroke-width", placesText places s.style.strokeWidth)
  | points {line : List Point} : line ∈ lines →
      IsAttribute places s f lines ("points", pointsText places line)

theorem isAttribute_style : ∀ a ∈ s.style.attributes places, IsAttribute places s f lines a := by
  simp only [Style.attributes, List.forall_mem_cons]
  exact ⟨.plain (by decide), .strokeWidth, .plain (by decide), .plain (by decide),
    .plain (by decide), List.forall_mem_nil _⟩

theorem mem_sizeAttribute {key : String} {size : Option Float} {a : String × String}
    (h : a ∈ sizeAttribute places key size) : ∃ x ∈ size, a = (key, placesText places x) := by
  cases size with
  | none => cases h
  | some x =>
    by_cases hx : (x == 0) = true
    · simp [sizeAttribute, hx] at h
    · simp only [sizeAttribute, if_neg hx, List.mem_singleton] at h
      exact ⟨x, rfl, h⟩

theorem isAttribute_polyline : ∀ e ∈ lines.map (polylineElement places s.style),
    ∀ a ∈ e.allAttributes, IsAttribute places s f lines a := by
  intro e he
  obtain ⟨line, hline, rfl⟩ := List.mem_map.mp he
  exact List.forall_mem_cons.mpr ⟨.points hline, isAttribute_style⟩

theorem isAttribute_root (title : Option String) :
    ∀ a ∈ (element places s title f lines).attributes, IsAttribute places s f lines a := by
  rw [element, Element.attributes, List.forall_mem_append, List.forall_mem_append]
  refine ⟨⟨?_, fun a ha => ?_⟩, fun a ha => ?_⟩
  · simp only [List.forall_mem_cons]
    exact ⟨.plain (by decide), .plain (by decide), .viewBox, List.forall_mem_nil _⟩
  · obtain ⟨x, hx, rfl⟩ := mem_sizeAttribute ha
    exact .width hx
  · obtain ⟨x, hx, rfl⟩ := mem_sizeAttribute ha
    exact .height hx

theorem isAttribute_of_mem :
    ∀ a ∈ (element places s title f lines).allAttributes, IsAttribute places s f lines a := by
  rw [element, Element.allAttributes, List.forall_mem_append, Element.forall_mem_childAttributes]
  refine ⟨isAttribute_root title, ?_⟩
  intro e he
  rcases List.mem_append.mp he with he | he
  · rcases mem_preamble he with ⟨t, rfl⟩ | ⟨b, _, rfl⟩
    · exact List.forall_mem_nil _
    · rw [Element.allAttributes, List.forall_mem_append, List.forall_mem_singleton]
      exact ⟨fun a ha => .frame ha, .plain (by decide)⟩
  · by_cases h : s.flip = true
    · rw [if_pos h, List.mem_singleton] at he
      subst he
      rw [Element.allAttributes, List.forall_mem_append, List.forall_mem_singleton,
        Element.forall_mem_childAttributes]
      exact ⟨.transform h, isAttribute_polyline⟩
    · rw [if_neg h] at he
      exact isAttribute_polyline e he

theorem printsDecimals_frame (places : ℕ) (h : f.IsFinite) :
    ∀ a ∈ frameAttributes places f, PrintsDecimals a := by
  simp only [frameAttributes, List.forall_mem_cons]
  exact ⟨(printsDecimals_number_iff (by decide)).mpr h.left,
    (printsDecimals_number_iff (by decide)).mpr h.top,
    (printsDecimals_number_iff (by decide)).mpr h.width,
    (printsDecimals_number_iff (by decide)).mpr h.height, List.forall_mem_nil _⟩

theorem printsDecimals_element (hfinite : f.IsFinite)
    (hflip : s.flip = true → (f.top + f.bottom).isFinite = true)
    (hwidth : ∀ x ∈ s.width, x.isFinite = true) (hheight : ∀ x ∈ s.height, x.isFinite = true)
    (hstroke : s.style.strokeWidth.isFinite = true)
    (hlines : ∀ l ∈ lines, l ≠ [] ∧ ∀ p ∈ l, p.IsPrintable) :
    ∀ a ∈ (element places s title f lines).allAttributes, PrintsDecimals a := by
  intro a ha
  cases isAttribute_of_mem a ha with
  | plain hkey => exact printsDecimals_of_not_mem hkey
  | viewBox => exact printsDecimals_viewBox hfinite
  | frame hframe => exact printsDecimals_frame places hfinite a hframe
  | width hx => exact (printsDecimals_number_iff (by decide)).mpr (hwidth _ hx)
  | height hx => exact (printsDecimals_number_iff (by decide)).mpr (hheight _ hx)
  | transform h => exact printsDecimals_transform_iff.mpr (hflip h)
  | strokeWidth => exact (printsDecimals_number_iff (by decide)).mpr hstroke
  | points hline => exact printsDecimals_points (hlines _ hline).1 (hlines _ hline).2

theorem printsDecimals_drawn (hstroke : s.style.strokeWidth.isFinite = true)
    (hlines : ∀ l ∈ lines, l ≠ [] ∧ ∀ p ∈ l, p.IsPrintable) :
    ∀ a ∈ (element places s title f lines).allAttributes, a.1 ∈ ["points", "stroke-width"] →
      PrintsDecimals a := by
  intro a ha hkey
  cases isAttribute_of_mem a ha with
  | plain h => exact printsDecimals_of_not_mem h
  | strokeWidth => exact (printsDecimals_number_iff (by decide)).mpr hstroke
  | points hline => exact printsDecimals_points (hlines _ hline).1 (hlines _ hline).2
  | frame hframe =>
    simp only [frameAttributes, List.mem_cons, List.not_mem_nil, or_false] at hframe
    rcases hframe with rfl | rfl | rfl | rfl <;> exact absurd hkey (by simp)
  | _ => exact absurd hkey (by simp)

theorem transform_mem_allAttributes (h : s.flip = true) :
    ("transform", flipTransform places f) ∈ (element places s title f lines).allAttributes := by
  have hgroup : ∀ es : List Element, ("transform", flipTransform places f) ∈
      Element.childAttributes (es ++ [.group "g" [("transform", flipTransform places f)]
        (lines.map (polylineElement places s.style))]) := by
    intro es
    induction es with
    | nil => exact List.mem_append_left _ List.mem_cons_self
    | cons e es ih => exact List.mem_append_right _ ih
  rw [element, if_pos h]
  exact List.mem_append_right _ (hgroup _)

theorem lookup_viewBox :
    (element places s title f lines).attributes.lookup "viewBox" = some (viewBox places f) := by
  simp [element, Element.attributes, List.lookup]

theorem sizeAttribute_of_pos {key : String} {x : Float} (hx : 0 < x) :
    sizeAttribute places key (some x) = [(key, placesText places x)] := by
  refine if_neg fun hzero => ?_
  obtain ⟨v, w, hv, hw, hlt⟩ := lt_iff.mp hx
  obtain ⟨u, hu, hu'⟩ := (Coordinate.same_iff (c := .exact x) (d := .exact 0)).mp hzero
  obtain rfl : v = u := Option.some.inj (hv.symm.trans hu')
  obtain rfl : w = v := Option.some.inj (hw.symm.trans hu)
  exact lt_irrefl _ hlt

theorem lookup_width {x : Float} (hsize : s.width = some x) (hx : 0 < x) :
    (element places s title f lines).attributes.lookup "width" = some (placesText places x) := by
  simp [element, Element.attributes, List.lookup, hsize, sizeAttribute_of_pos hx]

theorem lookup_height {x : Float} (hsize : s.height = some x) (hx : 0 < x) :
    (element places s title f lines).attributes.lookup "height" = some (placesText places x) := by
  have hwidth : (sizeAttribute places "width" s.width).lookup "height" = none := by
    cases s.width with
    | none => rfl
    | some w => by_cases hw : (w == 0) = true <;> simp [sizeAttribute, hw]
  simp [element, Element.attributes, List.lookup, List.lookup_append, hsize, hwidth,
    sizeAttribute_of_pos hx]

/-- The sizes of a frame and those that the settings ask for outlast the rounding, and the line in
which the drawing is reflected, if it is, is finite. -/
structure OutlastsPrinting (places : ℕ) (s : Settings) (f : Frame) : Prop where
  width : OutlastsRounding places f.width
  height : OutlastsRounding places f.height
  reflection : s.flip = true → (f.top + f.bottom).isFinite = true
  givenWidth : ∀ x ∈ s.width, OutlastsRounding places x
  givenHeight : ∀ x ∈ s.height, OutlastsRounding places x

theorem outlastsPrinting_iff :
    OutlastsPrinting places s f ↔
      OutlastsRounding places f.width ∧ OutlastsRounding places f.height ∧
        (s.flip = true → (f.top + f.bottom).isFinite = true) ∧
        (∀ x ∈ s.width, OutlastsRounding places x) ∧
        ∀ x ∈ s.height, OutlastsRounding places x :=
  ⟨fun h => ⟨h.width, h.height, h.reflection, h.givenWidth, h.givenHeight⟩,
    fun ⟨h₁, h₂, h₃, h₄, h₅⟩ => ⟨h₁, h₂, h₃, h₄, h₅⟩⟩

instance (places : ℕ) (s : Settings) (f : Frame) : Decidable (OutlastsPrinting places s f) :=
  decidable_of_iff' _ outlastsPrinting_iff

/-- How far the sizes of a drawing are printed as they should be. -/
theorem isSized_element_iff (hwidth : ∀ x ∈ s.width, 0 < x) (hheight : ∀ x ∈ s.height, 0 < x)
    (hstroke : s.style.strokeWidth.isFinite = true)
    (hlines : ∀ l ∈ lines, l ≠ [] ∧ ∀ p ∈ l, p.IsPrintable) :
    IsSized s (element places s title f lines) ↔ OutlastsPrinting places s f := by
  constructor
  · intro h
    obtain ⟨text, x, y, w, z, hlookup, hsplit, hw, hz⟩ := h.viewBox
    obtain rfl := Option.some.inj (lookup_viewBox.symm.trans hlookup)
    rw [splitOn_viewBox] at hsplit
    cases hsplit
    refine ⟨isPositiveDecimal_placesText_iff.mp hw, isPositiveDecimal_placesText_iff.mp hz, ?_, ?_,
      ?_⟩
    · intro hflip
      exact printsDecimals_transform_iff.mp (h.decimals _ (transform_mem_allAttributes hflip))
    · intro x hx
      obtain ⟨text, hlookup, hpositive⟩ := h.width (Option.isSome_iff_exists.mpr ⟨x, hx⟩)
      obtain rfl := Option.some.inj ((lookup_width hx (hwidth x hx)).symm.trans hlookup)
      exact isPositiveDecimal_placesText_iff.mp hpositive
    · intro x hx
      obtain ⟨text, hlookup, hpositive⟩ := h.height (Option.isSome_iff_exists.mpr ⟨x, hx⟩)
      obtain rfl := Option.some.inj ((lookup_height hx (hheight x hx)).symm.trans hlookup)
      exact isPositiveDecimal_placesText_iff.mp hpositive
  · intro h
    refine ⟨?_, ?_, ?_, ?_⟩
    · exact printsDecimals_element (Frame.isFinite_of_size h.width.isFinite h.height.isFinite)
        h.reflection (fun x hx => (h.givenWidth x hx).isFinite)
        (fun x hx => (h.givenHeight x hx).isFinite) hstroke hlines
    · exact ⟨_, _, _, _, _, lookup_viewBox, splitOn_viewBox places f,
        isPositiveDecimal_placesText_iff.mpr h.width, isPositiveDecimal_placesText_iff.mpr h.height⟩
    · intro hsome
      obtain ⟨x, hx⟩ := Option.isSome_iff_exists.mp hsome
      exact ⟨_, lookup_width hx (hwidth x hx),
        isPositiveDecimal_placesText_iff.mpr (h.givenWidth x hx)⟩
    · intro hsome
      obtain ⟨x, hx⟩ := Option.isSome_iff_exists.mp hsome
      exact ⟨_, lookup_height hx (hheight x hx),
        isPositiveDecimal_placesText_iff.mpr (h.givenHeight x hx)⟩

end

end Svg

/-! ## Written files -/

namespace Program

theorem svg_of_override {word : Option String} {given c : Config}
    (h : override word given = .ok c) :
    c.svg = given.svg := by
  unfold override at h
  split at h
  · cases h
    rfl
  · split at h
    · cases h
    · cases h
      rfl

def frameOf (A : Arithmetic) (c : Config) : Except DrawingError Svg.Frame := do
  Svg.frame c.svg.margin (← bounds (linesOf A c))

def rootOf (A : Arithmetic) (c : Config) (places : ℕ) (f : Svg.Frame) : Element :=
  Svg.element places c.svg (some c.name) f (linesOf A c)

theorem isSized_of_render {cos sin : Float → Float} {verbose : Bool} {config : String}
    {output word : Option String} {here : Location} {t : FileTree} {given c : Config}
    (hload : Loads t here config given) (hword : override word given = .ok c)
    (hok : ((render (.rounded cos sin) verbose config output word).run here t).1.ending = .exit 0) :
    ∃ path places f file text, output = some path ∧ c.svg.places = (places : ℕ) ∧
      frameOf (.rounded cos sin) c = .ok f ∧
      ((render (.rounded cos sin) verbose config output word).run here t).2.read here path =
        .ok file ∧
      Utf8.decode file = .ok text ∧
      String.ofList text = (rootOf (.rounded cos sin) c places f).document ∧
      (∀ a ∈ (rootOf (.rounded cos sin) c places f).allAttributes,
        a.1 ∈ ["points", "stroke-width"] → Svg.PrintsDecimals a) ∧
      (Svg.IsSized c.svg (rootOf (.rounded cos sin) c places f) ↔
        Svg.OutlastsPrinting places c.svg f) := by
  obtain ⟨given', c', text, path, hload', hword', htext, rfl, hsave⟩ := render_ending.mp hok
  obtain rfl := hload.unique hload'
  obtain rfl := Except.ok.inj (hword.symm.trans hword')
  obtain ⟨_, hdocument⟩ := drawingOf_eq_ok.mp htext
  obtain ⟨b, f, hbounds, hframe, hplaces, rfl⟩ := Svg.document_eq_ok.mp hdocument
  have hchecked : Config.IsChecked c.svg := by
    rw [svg_of_override hword]
    exact isChecked_of_loads hload
  have hframeOf : frameOf (.rounded cos sin) c = .ok f := bind_eq_ok.mpr ⟨b, hbounds, hframe⟩
  have hlines : ∀ l ∈ linesOf (.rounded cos sin) c, l ≠ [] ∧ ∀ p ∈ l, p.IsPrintable :=
    fun l hl => ⟨ne_nil_of_mem_linesOf hl, isPrintable_of_mem_linesOf hl⟩
  exact ⟨path, c.svg.places.toNat, f, _, _, rfl, (Int.toNat_of_nonneg hplaces).symm, hframeOf,
    read_of_render hload hword htext hsave, Utf8.decode_encode _, String.ofList_toList,
    Svg.printsDecimals_drawn hchecked.strokeWidth hlines,
    Svg.isSized_element_iff hchecked.width hchecked.height hchecked.strokeWidth hlines⟩

end Program

/-- Whatever `render` is asked for, when it ends well the file it names is the document of a drawing
in the frame of what the config draws. The points and the stroke width are decimals in this drawing.
All numbers in it are, and the width and the height of its view box, like those that the config asks
for, are above zero as they are printed, exactly if these sizes are finite and more than half a unit
of the last place printed and, in a flipped drawing, the line of reflection is finite. -/
theorem render_isSized_iff (cos sin : Float → Float) (fresh : ℤ) (here : Location) (t : FileTree)
    (arguments : List String) (verbose : Bool) (config : String) (output word : Option String)
    (hread : CommandLine.read arguments = .accepted ⟨verbose, .render config output word⟩)
    (hok : ((Program.job (.rounded cos sin) fresh arguments).run here t).1.ending = .exit 0) :
    let A := Arithmetic.rounded cos sin
    ∃ given c path places f file text,
      Program.Loads t here config given ∧ Program.override word given = .ok c ∧
      output = some path ∧ c.svg.places = (places : ℕ) ∧ Program.frameOf A c = .ok f ∧
      ((Program.job A fresh arguments).run here t).2.read here path = .ok file ∧
      Utf8.decode file = .ok text ∧
      String.ofList text = (Program.rootOf A c places f).document ∧
      (∀ a ∈ (Program.rootOf A c places f).allAttributes,
        a.1 ∈ ["points", "stroke-width"] → Svg.PrintsDecimals a) ∧
      (Svg.IsSized c.svg (Program.rootOf A c places f) ↔ Svg.OutlastsPrinting places c.svg f) := by
  intro A
  have hjob : Program.job A fresh arguments = Program.render A verbose config output word := by
    simp only [Program.job, hread, Program.perform]
  rw [hjob] at hok ⊢
  obtain ⟨given, c, hload, hword⟩ := Program.loads_of_render hok
  obtain ⟨path, places, f, file, text, hpath, hplaces, hframe, hback, hdecode, hdocument, hdrawn,
    hsized⟩ := Program.isSized_of_render hload hword hok
  exact ⟨given, c, path, places, f, file, text, hload, hword, hpath, hplaces, hframe, hback,
    hdecode, hdocument, hdrawn, hsized⟩

theorem render_isSized_iff_flipped :
    let text := "\x7b\"word\":\"F\",\"svg\":\x7b\"flip_y\":true,\"width\":100\x7d\x7d"
    let ran := (Program.job straight.1 0 ["render", "c", "o"]).run [] (Program.onlyConfig text)
    CommandLine.read ["render", "c", "o"] =
        .accepted ⟨false, .render "c" (some "o") none⟩ ∧
      ran.1.ending = .exit 0 ∧
      ∃ c places f file drawing, Program.Loads (Program.onlyConfig text) [] "c" c ∧
        ran.2.read [] "o" = .ok file ∧ Utf8.decode file = .ok drawing ∧
        String.ofList drawing = (Program.rootOf straight.1 c places f).document ∧
        Svg.IsSized c.svg (Program.rootOf straight.1 c places f) := by
  intro text ran
  have hread : CommandLine.read ["render", "c", "o"] =
      .accepted ⟨false, .render "c" (some "o") none⟩ := by decide +kernel
  have hok : ran.1.ending = .exit 0 := Ending.eq_exit_of_code? (by decide +kernel)
  have hlarge : ((Program.configOf "c" (Utf8.encode text.toList)).toOption.any fun c =>
      (Program.frameOf straight.1 c).toOption.any fun f =>
        decide (Svg.OutlastsPrinting c.svg.places.toNat c.svg f)) = true := by decide +kernel
  obtain ⟨given, c, path, places, f, file, drawing, ⟨bytes, hfile, hconfig⟩, hword, hpath, hplaces,
    hframe, hback, hdecode, hdocument, _, hsized⟩ :=
      render_isSized_iff (fun _ => 1) (fun _ => 0) 0 []
      (Program.onlyConfig text) _ false "c" (some "o") none hread hok
  obtain rfl : given = c := Except.ok.inj hword
  obtain rfl : "o" = path := Option.some.inj hpath
  obtain rfl : Utf8.encode text.toList = bytes :=
    Except.ok.inj ((Program.read_onlyConfig text).symm.trans hfile)
  have hframe' : Program.frameOf straight.1 given = .ok f := hframe
  rw [hconfig, Except.toOption, Option.any_some, hframe', Except.toOption, Option.any_some, hplaces,
    Int.toNat_natCast] at hlarge
  exact ⟨hread, hok, given, places, f, file, drawing, ⟨_, hfile, hconfig⟩, hback, hdecode,
    hdocument, hsized.mpr (of_decide_eq_true hlarge)⟩

/-- With a margin of a tenth of the last place printed `render` ends well, and the view box of a
straight line has the height zero. -/
theorem thin_margin_not_sized :
    let text := "\x7b\"word\":\"F\",\"svg\":\x7b\"margin\":0.0001\x7d\x7d"
    let ran := (Program.job straight.1 0 ["render", "c", "o"]).run [] (Program.onlyConfig text)
    ran.1.ending = .exit 0 ∧
      ∃ c places f file drawing, Program.Loads (Program.onlyConfig text) [] "c" c ∧
        ran.2.read [] "o" = .ok file ∧ Utf8.decode file = .ok drawing ∧
        String.ofList drawing = (Program.rootOf straight.1 c places f).document ∧
        placesText places f.height = "0" ∧
        ¬Svg.IsSized c.svg (Program.rootOf straight.1 c places f) := by
  intro text ran
  have hread : CommandLine.read ["render", "c", "o"] =
      .accepted ⟨false, .render "c" (some "o") none⟩ := by decide +kernel
  have hjob : Program.job straight.1 0 ["render", "c", "o"] =
      Program.render straight.1 false "c" (some "o") none := by
    simp only [Program.job, hread, Program.perform]
  have hok : ran.1.ending = .exit 0 := Ending.eq_exit_of_code? (by decide +kernel)
  have hthin : ((Program.configOf "c" (Utf8.encode text.toList)).toOption.any fun c =>
      (Program.frameOf straight.1 c).toOption.any fun f =>
        placesText c.svg.places.toNat f.height == "0") = true := by decide +kernel
  cases hconfig : Program.configOf "c" (Utf8.encode text.toList) with
  | error f =>
    rw [hconfig] at hthin
    cases hthin
  | ok c =>
    have hload : Program.Loads (Program.onlyConfig text) [] "c" c :=
      ⟨_, Program.read_onlyConfig text, hconfig⟩
    have hrender : ((Program.render straight.1 false "c" (some "o") none).run []
        (Program.onlyConfig text)).1.ending = .exit 0 := by
      rw [← hjob]
      exact hok
    obtain ⟨path, places, f, file, drawing, hpath, hplaces, hframe, hback, hdecode, hdocument, _,
      hsized⟩ := Program.isSized_of_render hload rfl hrender
    have hback' : ((Program.job straight.1 0 ["render", "c", "o"]).run []
        (Program.onlyConfig text)).2.read [] path = .ok file := by
      rw [hjob]
      exact hback
    obtain rfl : "o" = path := Option.some.inj hpath
    have hframe' : Program.frameOf straight.1 c = .ok f := hframe
    rw [hconfig, Except.toOption, Option.any_some, hframe', Except.toOption, Option.any_some,
      hplaces, Int.toNat_natCast, beq_iff_eq] at hthin
    refine ⟨hok, c, places, f, file, drawing, hload, hback', hdecode, hdocument, hthin, fun h => ?_⟩
    have hpositive := isPositiveDecimal_placesText_iff.mpr (hsized.mp h).height
    rw [hthin] at hpositive
    exact absurd hpositive (by decide +kernel)

end BracketTurtle
