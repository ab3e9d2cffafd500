import BracketTurtle.Number.Text

/-!
# Pens

A pen has a position and a heading. `x` grows to the right and `y` downward; heading 0 points
along `x`, so that a positive turn is clockwise on the screen. Headings are in degrees and grow
without being reduced.

A pen adds and multiplies doubles and takes cosines and sines. What these operations return is a
parameter of everything built on them: which commands draw, which pen a branch comes back to and
where a word faults do not hang on the values.
-/

namespace BracketTurtle

structure Arithmetic where
  add : Float → Float → Float
  mul : Float → Float → Float
  cos : Float → Float
  sin : Float → Float

namespace Arithmetic

/-- Rounded addition and multiplication of doubles, with given cosine and sine. -/
def rounded (cos sin : Float → Float) : Arithmetic := ⟨(· + ·), (· * ·), cos, sin⟩

/-- The arithmetic of the machine. -/
def machine : Arithmetic := rounded Float.cos Float.sin

end Arithmetic

/-- One degree in radians, rounded to a double once. -/
def degree : Float := 0.017453292519943295

structure Pen where
  x : Float
  y : Float
  heading : Float

/-- Why a pen cannot move or be rounded to a pixel. -/
inductive PenError where
  | infiniteHeading
  | pixelOfNaN
  | pixelOfInfinity
deriving DecidableEq, Repr

def PenError.message : PenError → String
  | .infiniteHeading => "math domain error"
  | .pixelOfNaN => "cannot convert float NaN to integer"
  | .pixelOfInfinity => "cannot convert float infinity to integer"

/-- Half up: the greatest integer not above `v + 0.5`, the sum taken in doubles. -/
def roundHalfUp (A : Arithmetic) (v : Float) : Except PenError Int :=
  match Number.exact (A.add v 0.5) with
  | .notANumber => .error .pixelOfNaN
  | .infinite _ => .error .pixelOfInfinity
  | e => .ok (e.floor?.getD 0)

namespace Pen

/-- The pen at the origin that looks along `x`. -/
def origin : Pen := ⟨0, 0, 0⟩

/-- An infinite angle has neither cosine nor sine. -/
def move (A : Arithmetic) (distance : Float) (p : Pen) : Except PenError Pen :=
  let angle := A.mul p.heading degree
  if angle.isInf then .error .infiniteHeading
  else
    .ok ⟨A.add p.x (A.mul distance (A.cos angle)), A.add p.y (A.mul distance (A.sin angle)),
      p.heading⟩

def rotate (A : Arithmetic) (degrees : Float) (p : Pen) : Pen :=
  { p with heading := A.add p.heading degrees }

/-- The nearest point of the pixel grid. -/
def pixel (A : Arithmetic) (p : Pen) : Except PenError (Int × Int) := do
  let x ← roundHalfUp A p.x
  let y ← roundHalfUp A p.y
  return (x, y)

def isFinite (p : Pen) : Bool := p.x.isFinite && p.y.isFinite

def same (p q : Pen) : Bool := p.x == q.x && p.y == q.y && p.heading == q.heading

def shown (p : Pen) : String :=
  "PenState(x=" ++ Number.text p.x ++ ", y=" ++ Number.text p.y ++ ", heading_deg=" ++
    Number.text p.heading ++ ")"

@[simp] theorem rotate_x (A : Arithmetic) (d : Float) (p : Pen) : (p.rotate A d).x = p.x := rfl

@[simp] theorem rotate_y (A : Arithmetic) (d : Float) (p : Pen) : (p.rotate A d).y = p.y := rfl

@[simp] theorem isFinite_rotate (A : Arithmetic) (d : Float) (p : Pen) :
    (p.rotate A d).isFinite = p.isFinite := rfl

theorem move_heading {A : Arithmetic} {d : Float} {p q : Pen} (h : p.move A d = .ok q) :
    q.heading = p.heading := by
  simp only [move] at h
  split at h
  · cases h
  · cases h
    rfl

end Pen
end BracketTurtle
