import BracketTurtle.Proofs.PrintedSizes

/-!
# Drawn places

A drawing says where it draws: its view box is four decimals, the points of its polylines are
pairs of decimals, and an element is moved by its transforms and by those of the elements around
it. Read in this way, a drawing has one place for each point of its polylines, and a flipped one
has its reflection.
-/

namespace BracketTurtle
namespace Svg

open Number (Numeral placesText read?_placesText value? Value)

/-! ## Readers -/

def number? (cs : List Char) : Option ℚ := (Numeral.read? cs).map Numeral.value

def WrittenPoint.place? (p : WrittenPoint) : Option (ℚ × ℚ) := do
  return (← number? p.x, ← number? p.y)

/-- The places of a list of points, which may be empty. -/
def places? (text : String) : Option (List (ℚ × ℚ)) :=
  if text = "" then some []
  else (readPoints text.toList).bind fun points => points.mapM WrittenPoint.place?

/-- A rectangle. `y` grows downward. -/
structure Box where
  left : ℚ
  top : ℚ
  width : ℚ
  height : ℚ
deriving DecidableEq, Repr

namespace Box

def right (b : Box) : ℚ := b.left + b.width

def bottom (b : Box) : ℚ := b.top + b.height

def read? (text : String) : Option Box :=
  match (text.toList.splitOn ' ').mapM number? with
  | some [x, y, w, h] => some ⟨x, y, w, h⟩
  | _ => none

end Box

inductive Transform where
  | translate (dx dy : ℚ)
  | scale (sx sy : ℚ)
deriving DecidableEq, Repr

namespace Transform

def apply : Transform → ℚ × ℚ → ℚ × ℚ
  | .translate dx dy, p => (p.1 + dx, p.2 + dy)
  | .scale sx sy, p => (sx * p.1, sy * p.2)

/-- A name and two numbers between brackets. -/
def read? (cs : List Char) : Option Transform :=
  match cs.splitOn '(' with
  | [name, rest] =>
    match (rest.dropLast.splitOn ',').mapM number?, rest.getLast? with
    | some [a, b], some ')' =>
      if name = "translate".toList then some (.translate a b)
      else if name = "scale".toList then some (.scale a b)
      else none
    | _, _ => none
  | _ => none

/-- What a list of transforms does: the last comes first. -/
def motion? (text : String) : Option (ℚ × ℚ → ℚ × ℚ) :=
  ((text.toList.splitOn ' ').mapM read?).map fun ts p => ts.foldr apply p

end Transform

def ownPlaces (attributes : List (String × String)) : Option (List (ℚ × ℚ)) :=
  (attributes.lookup "points").elim (some []) places?

def ownMotion (motion : String → Option (ℚ × ℚ → ℚ × ℚ)) (attributes : List (String × String)) :
    Option (ℚ × ℚ → ℚ × ℚ) :=
  (attributes.lookup "transform").elim (some id) motion

mutual

/-- The places of the points of an element and of all elements in it, in order, moved by the
transforms around them. -/
def placesIn (motion : String → Option (ℚ × ℚ → ℚ × ℚ)) : Element → Option (List (ℚ × ℚ))
  | .empty _ attributes | .text _ attributes _ => do
    return (← ownPlaces attributes).map (← ownMotion motion attributes)
  | .group _ attributes children => do
    return ((← ownPlaces attributes) ++ (← placesOfAll motion children)).map
      (← ownMotion motion attributes)

def placesOfAll (motion : String → Option (ℚ × ℚ → ℚ × ℚ)) :
    List Element → Option (List (ℚ × ℚ))
  | [] => some []
  | e :: es => do
    return (← placesIn motion e) ++ (← placesOfAll motion es)

end

/-- The places as they are printed. -/
def printedPlaces (e : Element) : Option (List (ℚ × ℚ)) := placesIn (fun _ => some id) e

/-- The places at which is drawn. -/
def drawnPlaces (e : Element) : Option (List (ℚ × ℚ)) := placesIn Transform.motion? e

/-! ## The places of a drawing -/

section

variable {places : ℕ} {s : Settings} {f : Frame} {place : Point → ℚ × ℚ}
  {motion : String → Option (ℚ × ℚ → ℚ × ℚ)}

theorem places?_pointsText {line : List Point}
    (h : ∀ p ∈ line, (written places p).place? = some (place p)) :
    places? (pointsText places line) = some (line.map place) := by
  rcases eq_or_ne line [] with rfl | hne
  · rfl
  · have hpoints : readPoints (pointsText places line).toList = some (line.map (written places)) :=
      readPoints_pointsText hne
    have htext : pointsText places line ≠ "" := by
      intro hempty
      rw [hempty] at hpoints
      obtain ⟨p, ps, rfl⟩ := List.exists_cons_of_ne_nil hne
      cases hpoints
    rw [places?, if_neg htext, hpoints, Option.bind_some]
    exact Markup.mapM_map_eq_some h

theorem placesIn_polyline {line : List Point}
    (h : ∀ p ∈ line, (written places p).place? = some (place p)) :
    placesIn motion (polylineElement places s.style line) = some (line.map place) := by
  have hpoints : ownPlaces (("points", pointsText places line) :: s.style.attributes places) =
      some (line.map place) := by
    rw [ownPlaces, List.lookup_cons_self, Option.elim_some, places?_pointsText h]
  have hmotion :
      ownMotion motion (("points", pointsText places line) :: s.style.attributes places) =
      some id := by
    rfl
  rw [polylineElement, placesIn, hpoints, hmotion]
  exact congrArg some (List.map_id _)

theorem placesOfAll_append {es es' : List Element} {ps ps' : List (ℚ × ℚ)}
    (h : placesOfAll motion es = some ps) (h' : placesOfAll motion es' = some ps') :
    placesOfAll motion (es ++ es') = some (ps ++ ps') := by
  induction es generalizing ps with
  | nil =>
    cases h
    exact h'
  | cons e es ih =>
    rw [placesOfAll] at h
    obtain ⟨qs, hqs, h⟩ := Option.bind_eq_some_iff.mp h
    obtain ⟨rs, hrs, h⟩ := Option.bind_eq_some_iff.mp h
    cases h
    rw [List.cons_append, placesOfAll, hqs, ih hrs]
    exact congrArg some (List.append_assoc qs rs ps').symm

theorem placesOfAll_preamble (places : ℕ) (f : Frame) (background title : Option String) :
    placesOfAll motion (preamble places f background title) = some [] := by
  have htitle (t : String) : placesIn motion (.text "title" [] t) = some [] := rfl
  have hrect (b : String) :
      placesIn motion (.empty "rect" (frameAttributes places f ++ [("fill", b)])) = some [] := rfl
  suffices h : ∀ es : List Element, (∀ e ∈ es, e ∈ preamble places f background title) →
      placesOfAll motion es = some [] from h _ fun _ he => he
  intro es hes
  induction es with
  | nil => rfl
  | cons e es ih =>
    have hrest := ih fun d hd => hes d (List.mem_cons_of_mem e hd)
    rcases mem_preamble (hes e List.mem_cons_self) with ⟨t, rfl⟩ | ⟨b, _, rfl⟩
    · rw [placesOfAll, htitle, hrest]
      rfl
    · rw [placesOfAll, hrect, hrest]
      rfl

theorem lookup_root {title : Option String} {lines : List (List Point)} {key : String}
    (hkey : key ∉ ["xmlns", "version", "viewBox", "width", "height"]) :
    (element places s title f lines).attributes.lookup key = none := by
  have hkeys : ∀ a ∈ (element places s title f lines).attributes,
      a.1 ∈ ["xmlns", "version", "viewBox", "width", "height"] := by
    rw [element, Element.attributes, List.forall_mem_append, List.forall_mem_append]
    refine ⟨⟨by simp, fun a ha => ?_⟩, fun a ha => ?_⟩
    · obtain ⟨x, _, rfl⟩ := mem_sizeAttribute ha
      simp
    · obtain ⟨x, _, rfl⟩ := mem_sizeAttribute ha
      simp
  rw [List.lookup_eq_none_iff]
  intro a ha
  exact bne_iff_ne.mpr fun hka => hkey (hka ▸ hkeys a ha)

variable {lines : List (List Point)}
  (h : ∀ line ∈ lines, ∀ p ∈ line, (written places p).place? = some (place p))
include h

theorem placesOfAll_drawn :
    placesOfAll motion (lines.map (polylineElement places s.style)) =
      some (lines.flatten.map place) := by
  induction lines with
  | nil => rfl
  | cons line lines ih =>
    obtain ⟨hline, hrest⟩ := List.forall_mem_cons.mp h
    rw [List.map_cons, placesOfAll, placesIn_polyline hline, ih hrest, List.flatten_cons,
      List.map_append]
    rfl

/-- The places of a drawing are those of its polylines, moved by the one transform if it is
flipped. -/
theorem placesIn_element (s : Settings) (title : Option String) {move : ℚ × ℚ → ℚ × ℚ}
    (hmotion : motion (flipTransform places f) = some move) :
    placesIn motion (element places s title f lines) =
      some (if s.flip then (lines.flatten.map place).map move else lines.flatten.map place) := by
  have hgroup : placesIn motion (.group "g" [("transform", flipTransform places f)]
      (lines.map (polylineElement places s.style))) =
      some ((lines.flatten.map place).map move) := by
    have hown : ownMotion motion [("transform", flipTransform places f)] = some move := hmotion
    rw [placesIn, placesOfAll_drawn h, hown]
    rfl
  have hdrawn : placesOfAll motion
      (if s.flip then [.group "g" [("transform", flipTransform places f)]
        (lines.map (polylineElement places s.style))]
      else lines.map (polylineElement places s.style)) =
      some (if s.flip then (lines.flatten.map place).map move else lines.flatten.map place) := by
    by_cases hflip : s.flip = true
    · rw [if_pos hflip, if_pos hflip, placesOfAll, placesOfAll, hgroup]
      exact congrArg some (List.append_nil _)
    · rw [if_neg hflip, if_neg hflip, placesOfAll_drawn h]
  have hchildren := placesOfAll_append (placesOfAll_preamble places f s.background title) hdrawn
  have hplaces : ownPlaces (element places s title f lines).attributes = some [] := by
    rw [ownPlaces, lookup_root (by decide), Option.elim_none]
  have hown : ownMotion motion (element places s title f lines).attributes = some id := by
    rw [ownMotion, lookup_root (by decide), Option.elim_none]
  rw [element, Element.attributes] at hplaces hown
  rw [element, placesIn, hplaces, hown, hchildren]
  exact congrArg some (List.map_id _)

end

/-! ## The view box and the transform -/

theorem read?_viewBox {places : ℕ} {f : Frame} {b : Box}
    (hleft : number? (placesText places f.left).toList = some b.left)
    (htop : number? (placesText places f.top).toList = some b.top)
    (hwidth : number? (placesText places f.width).toList = some b.width)
    (hheight : number? (placesText places f.height).toList = some b.height) :
    Box.read? (viewBox places f) = some b := by
  rw [Box.read?, splitOn_viewBox]
  simp [hleft, htop, hwidth, hheight]

def reflected (k : ℚ) (p : ℚ × ℚ) : ℚ × ℚ := (p.1, k - p.2)

def translation (cs : List Char) : List Char :=
  ['('].intercalate ["translate".toList, [','].intercalate [['0'], cs] ++ [')']]

theorem read?_translation {cs : List Char} {k : ℚ} (hopen : '(' ∉ cs) (hcomma : ',' ∉ cs)
    (hk : number? cs = some k) : Transform.read? (translation cs) = some (.translate 0 k) := by
  have hcall : (translation cs).splitOn '(' =
      ["translate".toList, [','].intercalate [['0'], cs] ++ [')']] := by
    refine List.splitOn_intercalate '(' ?_ (List.cons_ne_nil _ _)
    simp [List.intercalate, hopen]
  have harguments : ([','].intercalate [['0'], cs]).splitOn ',' = [['0'], cs] := by
    refine List.splitOn_intercalate ',' ?_ (List.cons_ne_nil _ _)
    simp [hcomma]
  have hzero : number? ['0'] = some 0 := by decide +kernel
  rw [Transform.read?, hcall]
  simp only [List.dropLast_concat, List.getLast?_concat, harguments]
  simp [hzero, hk]

theorem motion?_flipTransform {places : ℕ} {f : Frame} {k : ℚ}
    (hk : number? (placesText places (f.top + f.bottom)).toList = some k) :
    Transform.motion? (flipTransform places f) = some (reflected k) := by
  have hfree (c : Char) (hc : Number.isNumberChar c = false) :
      c ∉ (placesText places (f.top + f.bottom)).toList := not_mem_placesText hc
  have htext : (flipTransform places f).toList = [' '].intercalate
      [translation (placesText places (f.top + f.bottom)).toList, "scale(1,-1)".toList] := by
    simp [flipTransform, translation, List.intercalate]
  have hsplit : (flipTransform places f).toList.splitOn ' ' =
      [translation (placesText places (f.top + f.bottom)).toList, "scale(1,-1)".toList] := by
    rw [htext]
    refine List.splitOn_intercalate ' ' ?_ (List.cons_ne_nil _ _)
    simp [translation, List.intercalate, hfree ' ' (by decide)]
  have hscale : Transform.read? "scale(1,-1)".toList = some (.scale 1 (-1)) := by decide +kernel
  have hread := read?_translation (hfree '(' (by decide)) (hfree ',' (by decide)) hk
  rw [Transform.motion?, hsplit]
  simp only [List.mapM_cons, List.mapM_nil, hread, hscale]
  refine congrArg some (funext fun p => ?_)
  have hx : 1 * p.1 + 0 = p.1 := by ring
  have hy : -1 * p.2 + k = k - p.2 := by ring
  exact Prod.ext hx hy

end Svg
end BracketTurtle
