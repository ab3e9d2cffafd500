import BracketTurtle.Drawing.Bounds
import BracketTurtle.Drawing.Markup
import BracketTurtle.Number.Places

/-!
# Drawings as SVG

The polylines are framed by their bounds and a margin on every side. The frame is the view box of
the document; a flipped drawing is reflected in the horizontal line through its middle.
-/

namespace BracketTurtle
namespace Svg

structure Style where
  stroke : String
  strokeWidth : Float
  fill : String
  lineCap : String
  lineJoin : String

def Style.standard : Style := ⟨"#000", 1, "none", "round", "round"⟩

structure Settings where
  margin : Float
  places : Int
  flip : Bool
  width : Option Float
  height : Option Float
  style : Style
  background : Option String

/-- The bounds with the margin on every side. -/
structure Frame where
  left : Float
  top : Float
  right : Float
  bottom : Float

namespace Frame

def width (f : Frame) : Float := f.right - f.left

def height (f : Frame) : Float := f.bottom - f.top

end Frame

/-- The frame of a drawing must have a width and a height. -/
def frame (margin : Float) (b : Bounds) : Except DrawingError Frame :=
  let f : Frame :=
    ⟨b.left.toFloat - margin, b.top.toFloat - margin, b.right.toFloat + margin,
      b.bottom.toFloat + margin⟩
  if 0 < f.width ∧ 0 < f.height then .ok f else .error .degenerate

/-- Text of a coordinate; a number of places below zero is refused. -/
def numberText? (places : Int) (x : Float) : Except DrawingError String :=
  if places < 0 then .error .negativePlaces else .ok (Number.placesText places.toNat x)

def pointText (places : Nat) (p : Point) : String :=
  Number.placesText places p.x.toFloat ++ "," ++ Number.placesText places p.y.toFloat

def pointsText (places : Nat) (line : List Point) : String :=
  " ".intercalate (line.map (pointText places))

/-- A size of zero is as good as none. -/
def sizeAttribute (places : Nat) (name : String) : Option Float → List (String × String)
  | none => []
  | some x => if x == 0 then [] else [(name, Number.placesText places x)]

/-- A background is painted unless it is empty or says, in any case, that there is none. -/
def paintsBackground (fill : String) : Bool :=
  !fill.isEmpty && fill.toList.map Char.toLower != "none".toList

def frameAttributes (places : Nat) (f : Frame) : List (String × String) :=
  [("x", Number.placesText places f.left), ("y", Number.placesText places f.top),
    ("width", Number.placesText places f.width), ("height", Number.placesText places f.height)]

def viewBox (places : Nat) (f : Frame) : String :=
  " ".intercalate
    [Number.placesText places f.left, Number.placesText places f.top,
      Number.placesText places f.width, Number.placesText places f.height]

def Style.attributes (places : Nat) (s : Style) : List (String × String) :=
  [("stroke", s.stroke), ("stroke-width", Number.placesText places s.strokeWidth),
    ("fill", s.fill), ("stroke-linecap", s.lineCap), ("stroke-linejoin", s.lineJoin)]

def polylineElement (places : Nat) (style : Style) (line : List Point) : Element :=
  .empty "polyline" (("points", pointsText places line) :: style.attributes places)

/-- The elements before the polylines. -/
def preamble (places : Nat) (f : Frame) (background title : Option String) : List Element :=
  (match title with
    | some t => if t.isEmpty then [] else [.text "title" [] t]
    | none => []) ++
  match background with
    | some b =>
      if paintsBackground b then [.empty "rect" (frameAttributes places f ++ [("fill", b)])] else []
    | none => []

/-- The reflection lies in the same frame. -/
def flipTransform (places : Nat) (f : Frame) : String :=
  "translate(0," ++ Number.placesText places (f.top + f.bottom) ++ ") scale(1,-1)"

def element (places : Nat) (s : Settings) (title : Option String) (f : Frame)
    (lines : List (List Point)) : Element :=
  let drawn := lines.map (polylineElement places s.style)
  .group "svg"
    ([("xmlns", "http://www.w3.org/2000/svg"), ("version", "1.1"), ("viewBox", viewBox places f)] ++
      sizeAttribute places "width" s.width ++ sizeAttribute places "height" s.height)
    (preamble places f s.background title ++
      if s.flip then [.group "g" [("transform", flipTransform places f)] drawn] else drawn)

def document (s : Settings) (title : Option String) (lines : List (List Point)) :
    Except DrawingError String := do
  let f ← frame s.margin (← bounds lines)
  if s.places < 0 then throw .negativePlaces
  return (element s.places.toNat s title f lines).document

end Svg
end BracketTurtle
