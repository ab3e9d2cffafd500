import BracketTurtle.Number.Text

/-!
# Coordinates, points and segments

A coordinate is a pixel, which is an integer of any size, or a double. The two kinds are
compared by their exact values.
-/

namespace BracketTurtle

inductive Coordinate where
  | pixel (n : Int)
  | exact (x : Float)

namespace Coordinate

def text : Coordinate → String
  | .pixel n => Number.integerText n
  | .exact x => Number.text x

/-- Equality of numbers: the two zeros are equal, and what is not a number equals nothing. -/
def same : Coordinate → Coordinate → Bool
  | .pixel m, .pixel n => m = n
  | .exact x, .exact y => x == y
  | .exact x, .pixel n => (Number.exact x).compareInt n = some .eq
  | .pixel n, .exact x => (Number.exact x).compareInt n = some .eq

def less : Coordinate → Coordinate → Bool
  | .pixel m, .pixel n => m < n
  | .exact x, .exact y => x < y
  | .exact x, .pixel n => (Number.exact x).compareInt n = some .lt
  | .pixel n, .exact x => (Number.exact x).compareInt n = some .gt

/-- The coordinate as a double. Pixels of finite positions are doubles exactly; a pixel beyond
their range becomes an infinity. -/
def toFloat : Coordinate → Float
  | .pixel n => Float.ofInt n
  | .exact x => x

end Coordinate

structure Point where
  x : Coordinate
  y : Coordinate

def Point.same (p q : Point) : Bool := p.x.same q.x && p.y.same q.y

structure Segment where
  start : Point
  stop : Point

end BracketTurtle
