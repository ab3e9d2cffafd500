import BracketTurtle.Proofs.DrawnPlaces
import BracketTurtle.Proofs.Extremes

/-!
# Framing

The frame of a drawing leaves a margin around its places on every side, and no more than the
margin. On the pixel grid nothing of this is lost to rounding: whole numbers of up to 53 binary
digits are doubles, and they are printed as they are. A flipped drawing is framed as well, since
the frame is its own reflection.
-/

namespace BracketTurtle

open Number (value? Value)

/-! ## Places in a box -/

namespace Svg

/-- All places are in the box at the margin from its edges or farther, and for each edge one of
them is at the margin. -/
structure Box.Frames (b : Box) (m : ℚ) (ps : List (ℚ × ℚ)) : Prop where
  inside : ∀ p ∈ ps, b.left + m ≤ p.1 ∧ b.top + m ≤ p.2 ∧ p.1 + m ≤ b.right ∧ p.2 + m ≤ b.bottom
  left : ∃ p ∈ ps, p.1 = b.left + m
  top : ∃ p ∈ ps, p.2 = b.top + m
  right : ∃ p ∈ ps, p.1 + m = b.right
  bottom : ∃ p ∈ ps, p.2 + m = b.bottom

def Box.around (m left top right bottom : ℚ) : Box :=
  ⟨left - m, top - m, right - left + 2 * m, bottom - top + 2 * m⟩

variable {ps : List (ℚ × ℚ)} {m left top right bottom : ℚ}

theorem frames_around (h : Spans ps left top right bottom) :
    (Box.around m left top right bottom).Frames m ps := by
  have hright : (Box.around m left top right bottom).right = right + m := by
    simp only [Box.right, Box.around]
    ring
  have hbottom : (Box.around m left top right bottom).bottom = bottom + m := by
    simp only [Box.bottom, Box.around]
    ring
  have hleft : (Box.around m left top right bottom).left + m = left := sub_add_cancel _ _
  have htop : (Box.around m left top right bottom).top + m = top := sub_add_cancel _ _
  constructor
  · intro p hp
    rw [hleft, htop, hright, hbottom, add_le_add_iff_right, add_le_add_iff_right]
    exact ⟨h.left.2 ⟨p, hp, rfl⟩, h.top.2 ⟨p, hp, rfl⟩, h.right.2 ⟨p, hp, rfl⟩,
      h.bottom.2 ⟨p, hp, rfl⟩⟩
  · rw [hleft]
    exact h.left.1
  · rw [htop]
    exact h.top.1
  · obtain ⟨p, hp, rfl⟩ := h.right.1
    exact ⟨p, hp, hright.symm⟩
  · obtain ⟨p, hp, rfl⟩ := h.bottom.1
    exact ⟨p, hp, hbottom.symm⟩

theorem Box.Frames.reflected {b : Box} (h : b.Frames m ps) :
    b.Frames m (ps.map (reflected (b.top + b.bottom))) := by
  constructor
  · intro q hq
    obtain ⟨p, hp, rfl⟩ := List.mem_map.mp hq
    obtain ⟨hleft, htop, hright, hbottom⟩ := h.inside p hp
    exact ⟨hleft, by simp only [Svg.reflected]; linarith, hright,
      by simp only [Svg.reflected]; linarith⟩
  · obtain ⟨p, hp, hx⟩ := h.left
    exact ⟨_, List.mem_map_of_mem hp, hx⟩
  · obtain ⟨p, hp, hy⟩ := h.bottom
    exact ⟨_, List.mem_map_of_mem hp, by simp only [Svg.reflected]; linarith⟩
  · obtain ⟨p, hp, hx⟩ := h.right
    exact ⟨_, List.mem_map_of_mem hp, hx⟩
  · obtain ⟨p, hp, hy⟩ := h.top
    exact ⟨_, List.mem_map_of_mem hp, by simp only [Svg.reflected]; linarith⟩

end Svg

/-! ## Whole coordinates -/

/-- A whole number of limited size. -/
def Coordinate.IsWholeWithin (b : ℕ) (c : Coordinate) : Prop :=
  ∃ n : ℤ, |n| ≤ b ∧ c.value? = some (.ofRat n)

theorem Coordinate.IsWholeWithin.isFraction {b : ℕ} {c : Coordinate} (h : c.IsWholeWithin b) :
    c.IsFraction := by
  obtain ⟨n, _, hn⟩ := h
  exact .of_value? hn

def Point.IsWholeWithin (b : ℕ) (p : Point) : Prop := p.x.IsWholeWithin b ∧ p.y.IsWholeWithin b

structure Bounds.IsWholeWithin (b : ℕ) (B : Bounds) : Prop where
  left : B.left.IsWholeWithin b
  top : B.top.IsWholeWithin b
  right : B.right.IsWholeWithin b
  bottom : B.bottom.IsWholeWithin b

theorem Bounds.IsOf.isWholeWithin {b : ℕ} {B : Bounds} {ps : List Point} (hB : B.IsOf ps)
    (h : ∀ p ∈ ps, p.IsWholeWithin b) : B.IsWholeWithin b := by
  have hx : ∀ c ∈ ps.map Point.x, c.IsWholeWithin b :=
    List.forall_mem_map.mpr fun p hp => (h p hp).1
  have hy : ∀ c ∈ ps.map Point.y, c.IsWholeWithin b :=
    List.forall_mem_map.mpr fun p hp => (h p hp).2
  exact ⟨hx _ hB.left, hy _ hB.top, hx _ hB.right, hy _ hB.bottom⟩

theorem bounds_of_whole {lines : List (List Point)} {b : ℕ}
    (h : ∀ line ∈ lines, ∀ p ∈ line, p.IsWholeWithin b) {B : Bounds} (hB : bounds lines = .ok B) :
    B.IsWholeWithin b ∧ Spans (lines.flatten.map Point.place) B.left.fraction B.top.fraction
      B.right.fraction B.bottom.fraction := by
  obtain ⟨hof, hspans⟩ := bounds_spec (fun line hline p hp =>
    ⟨(h line hline p hp).1.isFraction, (h line hline p hp).2.isFraction⟩) hB
  refine ⟨hof.isWholeWithin fun p hp => ?_, hspans⟩
  obtain ⟨line, hline, hp⟩ := List.mem_flatten.mp hp
  exact h line hline p hp

/-! ## Exact frames -/

namespace Number

theorem rounded_intCast_of_le {k : ℤ} (hk : |k| ≤ 2 ^ 53) : rounded k = .ofRat k := by
  rcases hk.lt_or_eq with hlt | heq
  · exact rounded_intCast hlt
  · obtain ⟨j, rfl, hj⟩ : ∃ j : ℤ, k = j * 2 ∧ |j| < 2 ^ 53 := by
      rcases (abs_eq (by norm_num)).mp heq with rfl | rfl
      · exact ⟨2 ^ 52, by norm_num, by norm_num⟩
      · exact ⟨-2 ^ 52, by norm_num, by norm_num⟩
    have hround := rounded_of_lt hj (e := 1) (by norm_num)
    have hsize : |((j * 2 : ℤ) : ℚ)| < limit := by
      have hcast : |((j * 2 : ℤ) : ℚ)| = 2 ^ (53 : ℤ) := by exact_mod_cast heq
      rw [hcast, limit]
      exact zpow_lt_zpow_right₀ one_lt_two (by norm_num)
    rw [zpow_one, ← Int.cast_two, ← Int.cast_mul, Value.bounded_of_lt hsize] at hround
    exact hround

def IsInt (x : Float) (n : ℤ) : Prop := value? x = some (.ofRat n)

namespace IsInt

variable {x y : Float} {m n : ℤ}

theorem add (hx : IsInt x m) (hy : IsInt y n) (h : |m + n| ≤ 2 ^ 53) : IsInt (x + y) (m + n) := by
  have hsum := value?_add hx hy
  rwa [← Int.cast_add, rounded_intCast_of_le h] at hsum

theorem sub (hx : IsInt x m) (hy : IsInt y n) (h : |m - n| ≤ 2 ^ 53) : IsInt (x - y) (m - n) := by
  have hdifference := value?_sub hx hy
  rwa [← Int.cast_sub, rounded_intCast_of_le h] at hdifference

theorem number?_placesText (h : IsInt x n) (places : ℕ) :
    Svg.number? (placesText places x).toList = some (n : ℚ) := by
  have hunits : (n : ℚ) * 10 ^ places = ((n * 10 ^ places : ℤ) : ℚ) := by
    push_cast
    rfl
  have hpow : (10 : ℚ) ^ places ≠ 0 := by positivity
  rw [Svg.number?, read?_placesText places h, Option.map_some, hunits, roundEven_intCast,
    Numeral.value_ofUnits]
  push_cast
  rw [mul_div_cancel_right₀ _ hpow]

end IsInt

end Number

open Number (IsInt)

theorem Coordinate.IsWholeWithin.toFloat {b : ℕ} (hb : b < 2 ^ 53) {c : Coordinate}
    (h : c.IsWholeWithin b) : ∃ n : ℤ, |n| ≤ b ∧ c.fraction = n ∧ IsInt c.toFloat n := by
  obtain ⟨n, hn, hvalue⟩ := h
  refine ⟨n, hn, fraction_eq hvalue, ?_⟩
  cases c with
  | pixel m =>
    obtain rfl : m = n := by
      exact_mod_cast Value.ofRat_strictMono.injective (Option.some.inj hvalue)
    exact Number.value?_ofInt (by omega)
  | exact x => exact hvalue

namespace Svg

theorem place?_written {b : ℕ} (hb : b < 2 ^ 53) {p : Point} (h : p.IsWholeWithin b)
    (places : ℕ) : (written places p).place? = some p.place := by
  obtain ⟨m, _, hm, hx⟩ := h.1.toFloat hb
  obtain ⟨n, _, hn, hy⟩ := h.2.toFloat hb
  rw [WrittenPoint.place?, written, hx.number?_placesText, hy.number?_placesText, Point.place, hm,
    hn]
  rfl

structure Frame.IsAround (f : Frame) (m l t r b : ℤ) : Prop where
  left : IsInt f.left (l - m)
  top : IsInt f.top (t - m)
  width : IsInt f.width (r + m - (l - m))
  height : IsInt f.height (b + m - (t - m))
  reflection : IsInt (f.top + f.bottom) (t - m + (b + m))

/-- The sums and differences that make up the frame of whole bounds are exact. -/
theorem isAround_frame {margin : Float} {m : ℤ} {B : Bounds} {f : Frame}
    (hf : frame margin B = .ok f) (hmargin : IsInt margin m) (hm : |m| ≤ 2 ^ 51)
    (hB : B.IsWholeWithin (2 ^ 51)) :
    ∃ l t r b : ℤ, f.IsAround m l t r b ∧ B.left.fraction = l ∧ B.top.fraction = t ∧
      B.right.fraction = r ∧ B.bottom.fraction = b := by
  obtain ⟨l, hl, hleft, hl'⟩ := hB.left.toFloat (by norm_num)
  obtain ⟨t, ht, htop, ht'⟩ := hB.top.toFloat (by norm_num)
  obtain ⟨r, hr, hright, hr'⟩ := hB.right.toFloat (by norm_num)
  obtain ⟨b, hb, hbottom, hb'⟩ := hB.bottom.toFloat (by norm_num)
  refine ⟨l, t, r, b, ?_, hleft, htop, hright, hbottom⟩
  unfold frame at hf
  simp only at hf
  split_ifs at hf
  cases hf
  rw [abs_le] at hm hl ht hr hb
  have houter := hl'.sub hmargin (abs_le.mpr ⟨by omega, by omega⟩)
  have hupper := ht'.sub hmargin (abs_le.mpr ⟨by omega, by omega⟩)
  have hright := hr'.add hmargin (abs_le.mpr ⟨by omega, by omega⟩)
  have hlower := hb'.add hmargin (abs_le.mpr ⟨by omega, by omega⟩)
  exact ⟨houter, hupper, hright.sub houter (abs_le.mpr ⟨by omega, by omega⟩),
    hlower.sub hupper (abs_le.mpr ⟨by omega, by omega⟩),
    hupper.add hlower (abs_le.mpr ⟨by omega, by omega⟩)⟩

namespace Frame.IsAround

variable {f : Frame} {m l t r b : ℤ}

theorem read?_viewBox (h : f.IsAround m l t r b) (places : ℕ) :
    Box.read? (viewBox places f) = some (.around m l t r b) := by
  have hwidth : ((r + m - (l - m) : ℤ) : ℚ) = r - l + 2 * m := by
    push_cast
    ring
  have hheight : ((b + m - (t - m) : ℤ) : ℚ) = b - t + 2 * m := by
    push_cast
    ring
  apply Svg.read?_viewBox
  · rw [h.left.number?_placesText, Int.cast_sub]
    rfl
  · rw [h.top.number?_placesText, Int.cast_sub]
    rfl
  · rw [h.width.number?_placesText, hwidth]
    rfl
  · rw [h.height.number?_placesText, hheight]
    rfl

theorem motion?_flipTransform (h : f.IsAround m l t r b) (places : ℕ) :
    Transform.motion? (flipTransform places f) =
      some (reflected ((Box.around m l t r b).top + (Box.around m l t r b).bottom)) := by
  have hmiddle : ((t - m + (b + m) : ℤ) : ℚ) =
      (Box.around m l t r b).top + (Box.around m l t r b).bottom := by
    simp only [Box.bottom, Box.around]
    push_cast
    ring
  rw [Svg.motion?_flipTransform (h.reflection.number?_placesText places), hmiddle]

end Frame.IsAround

/-- A drawing of whole points with a whole margin, all of magnitude at most `2 ^ 51`, is framed
exactly. The view box is printed as the least coordinates less the margin, and as the differences
of the greatest and the least and twice the margin; all points are printed as the places where
they are, and these lie in the view box at the margin from its edges or farther, for each edge at
least one of them at the margin. A flipped drawing has a transform that does the same for the
places at which is drawn, and leads the top edge of the view box to its bottom edge. -/
theorem document_framed_exactly {s : Settings} {title : Option String} {lines : List (List Point)}
    {text : String} {m : ℤ} (hdocument : document s title lines = .ok text)
    (hlines : ∀ line ∈ lines, ∀ p ∈ line, p.IsWholeWithin (2 ^ 51))
    (hmargin : IsInt s.margin m) (hm : 0 ≤ m) (hm' : m ≤ 2 ^ 51) :
    ∃ f left top right bottom,
      let root := element s.places.toNat s title f lines
      let ps := lines.flatten.map Point.place
      let box := Box.around m left top right bottom
      text = root.document ∧ printedPlaces root = some ps ∧ Spans ps left top right bottom ∧
      (root.attributes.lookup "viewBox").bind Box.read? = some box ∧ box.Frames m ps ∧
      (s.flip = false → drawnPlaces root = some ps) ∧
      (s.flip = true → ∃ transform move, ("transform", transform) ∈ root.allAttributes ∧
        Transform.motion? transform = some move ∧ drawnPlaces root = some (ps.map move) ∧
        box.Frames m (ps.map move) ∧ ∀ x, move (x, box.top) = (x, box.bottom)) := by
  obtain ⟨B, f, hB, hf, _, rfl⟩ := document_eq_ok.mp hdocument
  obtain ⟨hwhole, hspans⟩ := bounds_of_whole hlines hB
  obtain ⟨l, t, r, b, haround, hleft, htop, hright, hbottom⟩ :=
    isAround_frame hf hmargin (abs_le.mpr ⟨by omega, hm'⟩) hwhole
  rw [hleft, htop, hright, hbottom] at hspans
  have hplaces : ∀ line ∈ lines, ∀ p ∈ line, (written s.places.toNat p).place? = some p.place :=
    fun line hline p hp => place?_written (by norm_num) (hlines line hline p hp) _
  have hframes : (Box.around m l t r b).Frames m (lines.flatten.map Point.place) :=
    frames_around hspans
  have hmotion := haround.motion?_flipTransform s.places.toNat
  have hprinted : printedPlaces (element s.places.toNat s title f lines) =
      some (lines.flatten.map Point.place) := by
    rw [printedPlaces, placesIn_element hplaces s title rfl, List.map_id, ite_self]
  have hdrawn := placesIn_element hplaces s title hmotion
  refine ⟨f, l, t, r, b, rfl, hprinted, hspans, ?_, hframes, ?_, ?_⟩
  · rw [lookup_viewBox, Option.bind_some, haround.read?_viewBox]
  · intro hflip
    rw [drawnPlaces, hdrawn, if_neg (Bool.eq_false_iff.mp hflip)]
  · intro hflip
    refine ⟨_, _, transform_mem_allAttributes hflip, hmotion, ?_, hframes.reflected, ?_⟩
    · rw [drawnPlaces, hdrawn, if_pos hflip]
    · exact fun x => Prod.ext rfl (add_sub_cancel_left _ _)

/-- A flipped drawing of pixels and doubles with a margin of ten. -/
theorem flipped_square_framed_exactly :
    let s : Settings := ⟨10, 3, true, none, none, .standard, some "white"⟩
    let lines : List (List Point) :=
      [[⟨.pixel 0, .pixel 0⟩, ⟨.pixel 8, .exact (-4)⟩],
        [⟨.exact 3, .pixel 2⟩, ⟨.pixel 1, .pixel 5⟩]]
    (∀ line ∈ lines, ∀ p ∈ line, p.IsWholeWithin (2 ^ 51)) ∧ IsInt s.margin 10 ∧
      ∃ text f left top right bottom,
        let root := element s.places.toNat s none f lines
        let ps := lines.flatten.map Point.place
        let box := Box.around 10 left top right bottom
        document s none lines = .ok text ∧ text = root.document ∧ printedPlaces root = some ps ∧
        Spans ps left top right bottom ∧
        (root.attributes.lookup "viewBox").bind Box.read? = some box ∧ box.Frames 10 ps ∧
        ∃ transform move, ("transform", transform) ∈ root.allAttributes ∧
          Transform.motion? transform = some move ∧ drawnPlaces root = some (ps.map move) ∧
          box.Frames 10 (ps.map move) ∧ ∀ x, move (x, box.top) = (x, box.bottom) := by
  intro s lines
  have hpixel {n : ℤ} (hn : |n| ≤ 2 ^ 51) : (Coordinate.pixel n).IsWholeWithin (2 ^ 51) :=
    ⟨n, hn, rfl⟩
  have hthree : (Coordinate.exact 3).IsWholeWithin (2 ^ 51) :=
    ⟨3, by norm_num, Number.value?_ofNat_of_lt (by norm_num)⟩
  have hfour : (Coordinate.exact (-4)).IsWholeWithin (2 ^ 51) :=
    ⟨-4, by norm_num, Number.value?_neg (Number.value?_ofNat_of_lt (by norm_num))⟩
  have hlines : ∀ line ∈ lines, ∀ p ∈ line, p.IsWholeWithin (2 ^ 51) := by
    simp only [lines, List.forall_mem_cons]
    exact ⟨⟨⟨hpixel (by norm_num), hpixel (by norm_num)⟩, ⟨hpixel (by norm_num), hfour⟩,
      List.forall_mem_nil _⟩, ⟨⟨hthree, hpixel (by norm_num)⟩,
      ⟨hpixel (by norm_num), hpixel (by norm_num)⟩, List.forall_mem_nil _⟩, List.forall_mem_nil _⟩
  have hmargin : IsInt s.margin (10 : ℕ) := Number.value?_ofNat_of_lt (by norm_num)
  have hsome : (document s none lines).isOk = true := by decide +kernel
  cases hdocument : document s none lines with
  | error e =>
    rw [hdocument] at hsome
    cases hsome
  | ok text =>
    obtain ⟨f, left, top, right, bottom, htext, hprinted, hspans, hbox, hframes, _, hflipped⟩ :=
      document_framed_exactly hdocument hlines hmargin (by norm_num) (by norm_num)
    exact ⟨hlines, hmargin, text, f, left, top, right, bottom, rfl, htext, hprinted, hspans, hbox,
      hframes, hflipped rfl⟩

end Svg
end BracketTurtle
