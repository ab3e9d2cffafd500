import BracketTurtle.Drawing.Point

/-!
# Bounds of a drawing

The least and greatest coordinates. Of equal coordinates the first is kept, so a zero keeps the
sign it had first; what is not a number is less than nothing and nothing is less than it.
-/

namespace BracketTurtle

structure Bounds where
  left : Coordinate
  top : Coordinate
  right : Coordinate
  bottom : Coordinate

/-- Why a drawing cannot be framed or written. -/
inductive DrawingError where
  | noPolylines
  | noPoints
  | degenerate
  | negativePlaces
deriving DecidableEq, Repr

def DrawingError.message : DrawingError → String
  | .noPolylines => "No drawable geometry produced."
  | .noPoints => "min() arg is an empty sequence"
  | .degenerate =>
    "Degenerate bounds after margin (width or height is zero). " ++
      "Set svg.margin > 0 to render collinear or single-point geometry."
  | .negativePlaces => "Format specifier missing precision"

namespace Coordinate

def least (c : Coordinate) (cs : List Coordinate) : Coordinate :=
  cs.foldl (fun best d => if d.less best then d else best) c

def greatest (c : Coordinate) (cs : List Coordinate) : Coordinate :=
  cs.foldl (fun best d => if best.less d then d else best) c

end Coordinate

def bounds (lines : List (List Point)) : Except DrawingError Bounds :=
  if lines.isEmpty then .error .noPolylines
  else
    match lines.flatten with
    | [] => .error .noPoints
    | p :: ps =>
      let xs := ps.map Point.x
      let ys := ps.map Point.y
      .ok ⟨p.x.least xs, p.y.least ys, p.x.greatest xs, p.y.greatest ys⟩

theorem bounds_nil : bounds [] = .error .noPolylines := rfl

end BracketTurtle
