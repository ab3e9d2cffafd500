import BracketTurtle.Drawing.Point

/-!
# Surfaces

A recorder keeps every segment it is given. A plotter joins segments into chains: a segment that
starts where the latest one ended makes the current chain longer, and any other begins a new
chain. A segment of no length adds no point, so a chain may hold a single point; such chains are
not among the polylines of the surface.
-/

namespace BracketTurtle

/-- A chain of points; it has at least one. -/
structure Chain where
  tip : Point
  /-- The points before the tip, latest first. -/
  earlier : List Point

namespace Chain

def points (c : Chain) : List Point := c.earlier.reverse ++ [c.tip]

def extend (c : Chain) (p : Point) : Chain := if c.tip.same p then c else ⟨p, c.tip :: c.earlier⟩

/-- The chain that begins with a segment. -/
def ofSegment (s : Segment) : Chain := extend ⟨s.start, []⟩ s.stop

theorem points_extend_of_same {c : Chain} {p : Point} (h : c.tip.same p = true) :
    (c.extend p).points = c.points := by simp [extend, h]

theorem points_extend_of_not_same {c : Chain} {p : Point} (h : c.tip.same p = false) :
    (c.extend p).points = c.points ++ [p] := by simp [extend, h, points]

end Chain

inductive Surface where
  /-- Segments, latest first. -/
  | recorder (drawn : List Segment)
  /-- Chains, latest first. -/
  | plotter (chains : List Chain)

namespace Surface

def plot : List Chain → Segment → List Chain
  | [], s => [.ofSegment s]
  | c :: rest, s =>
    if c.tip.same s.start then c.extend s.stop :: rest else .ofSegment s :: c :: rest

def draw : Surface → Segment → Surface
  | .recorder drawn, s => .recorder (s :: drawn)
  | .plotter chains, s => .plotter (plot chains s)

def drawAll (surface : Surface) (segments : List Segment) : Surface := segments.foldl draw surface

theorem drawAll_append (surface : Surface) (a b : List Segment) :
    surface.drawAll (a ++ b) = (surface.drawAll a).drawAll b := by
  simp [drawAll]

end Surface

/-- The polylines of a list of chains, earliest first. -/
def polylines (chains : List Chain) : List (List Point) :=
  (chains.reverse.map Chain.points).filter fun ps => 2 ≤ ps.length

end BracketTurtle
