import BracketTurtle.Proofs.Plotting
import Mathlib.Data.List.SplitBy

/-!
# Polylines

What a plotter makes of its segments can be said without chains. The segments are cut where one does
not start at the end of the one before it; a block is traced from its first start through all its
ends, without the points that equal the one before them; and traces of one point are left out. A
chain is the trace of a block, because its tip, which may be older than the latest end, is always
equal to it.
-/

namespace BracketTurtle

open List (consecutivePairs)

/-- The next segment starts where this one ends. -/
def Segment.leadsTo (s next : Segment) : Bool := s.stop.same next.start

/-- The longest runs of segments of which each leads to the next. -/
def blocks (segments : List Segment) : List (List Segment) := segments.splitBy Segment.leadsTo

/-- The first start of a block and all its ends. -/
def stations : List Segment → List Point
  | [] => []
  | s :: rest => s.start :: (s :: rest).map Segment.stop

/-- What is left of a list without the points that equal the one before them. -/
def withoutRepeats : List Point → List Point
  | [] => []
  | p :: ps =>
    p :: ((consecutivePairs (p :: ps)).filter fun pair => !pair.1.same pair.2).map Prod.snd

def trace (block : List Segment) : List Point := withoutRepeats (stations block)

/-- The polylines of a list of segments: the traces of its blocks that have a length. -/
def tracedLines (segments : List Segment) : List (List Point) :=
  ((blocks segments).map trace).filter fun line => 2 ≤ line.length

theorem withoutRepeats_append_pair (l : List Point) (p q : Point) :
    withoutRepeats (l ++ [p, q]) = withoutRepeats (l ++ [p]) ++ if p.same q then [] else [q] := by
  have hpairs := consecutivePairs_append_pair l p q
  cases l with
  | nil => cases h : p.same q <;> simp [withoutRepeats, consecutivePairs, h]
  | cons a l =>
    rw [List.cons_append, List.cons_append] at hpairs ⊢
    rw [withoutRepeats, withoutRepeats, hpairs]
    cases h : p.same q <;> simp [h]

theorem trace_singleton (s : Segment) : trace [s] = s.start :: if s.isDot then [] else [s.stop] :=
  withoutRepeats_append_pair [] s.start s.stop

theorem trace_append_pair (block : List Segment) (s next : Segment) :
    trace (block ++ [s, next]) =
      trace (block ++ [s]) ++ if s.stop.same next.stop then [] else [next.stop] := by
  cases block with
  | nil => exact withoutRepeats_append_pair [s.start] s.stop next.stop
  | cons first block =>
    have hstations (tail : List Segment) : stations (first :: block ++ tail) =
        stations (first :: block) ++ tail.map Segment.stop := by simp [stations]
    rw [trace, trace, hstations, hstations]
    exact withoutRepeats_append_pair ..

namespace Chain

theorem points_extend (c : Chain) (p : Point) :
    (c.extend p).points = c.points ++ if c.tip.same p then [] else [p] := by
  cases h : c.tip.same p with
  | true => simp [points_extend_of_same h]
  | false => simp [points_extend_of_not_same h]

theorem same_tip_extend (c : Chain) (p q : Point) : (c.extend p).tip.same q = p.same q := by
  unfold extend
  split
  · rename_i h
    exact Point.same_congr_left h q
  · rfl

theorem points_ofSegment (s : Segment) : (ofSegment s).points = trace [s] := by
  rw [ofSegment, points_extend, trace_singleton]
  rfl

def IsProper (c : Chain) : Prop := c.points.IsChain fun p q => p.same q = false

theorem IsProper.extend {c : Chain} (h : c.IsProper) (p : Point) : (c.extend p).IsProper := by
  unfold IsProper
  cases hsame : c.tip.same p with
  | true => rwa [points_extend_of_same hsame]
  | false =>
    rw [points_extend_of_not_same hsame, points, List.append_assoc]
    exact List.isChain_append_cons_cons.mpr ⟨h, hsame, .singleton p⟩

theorem isProper_ofSegment (s : Segment) : (ofSegment s).IsProper := by
  have hstart : IsProper ⟨s.start, []⟩ := .singleton s.start
  exact hstart.extend s.stop

/-- The later chains are the earlier ones, of which the latest may have more points at its end, or
they are one more. -/
inductive GrowTo : List Chain → List Chain → Prop
  | extended {c longer : Chain} (rest : List Chain) :
      c.points <+: longer.points → GrowTo (c :: rest) (longer :: rest)
  | opened (c : Chain) (chains : List Chain) : GrowTo chains (c :: chains)

end Chain

namespace Surface

theorem growTo_plot (chains : List Chain) (s : Segment) : Chain.GrowTo chains (plot chains s) := by
  cases chains with
  | nil => exact .opened _ []
  | cons c rest =>
    rw [plot]
    split
    · apply Chain.GrowTo.extended
      rw [Chain.points_extend]
      exact List.prefix_append ..
    · exact .opened _ _

theorem isProper_plot {chains : List Chain} (h : ∀ c ∈ chains, c.IsProper) (s : Segment) :
    ∀ c ∈ plot chains s, c.IsProper := by
  cases chains with
  | nil => exact List.forall_mem_singleton.mpr (Chain.isProper_ofSegment s)
  | cons c rest =>
    obtain ⟨hc, hrest⟩ := List.forall_mem_cons.mp h
    rw [plot]
    split
    · exact List.forall_mem_cons.mpr ⟨hc.extend _, hrest⟩
    · exact List.forall_mem_cons.mpr ⟨Chain.isProper_ofSegment s, h⟩

theorem isProper_foldl_plot (segments : List Segment) :
    ∀ c ∈ segments.foldl plot [], c.IsProper := by
  induction segments using List.reverseRecOn with
  | nil => exact List.forall_mem_nil _
  | append_singleton segments s ih =>
    rw [List.foldl_append]
    exact isProper_plot ih s

/-- Cutting and plotting go on alike: the current chain is the trace of the current block, and its
tip is equal to the latest end. -/
theorem map_points_foldl_plot (segments : List Segment) {latest : Segment} {before : List Segment}
    {done : List (List Segment)} {c : Chain} {rest : List Chain}
    (hc : c.points = trace (before.reverse ++ [latest]))
    (htip : ∀ p, c.tip.same p = latest.stop.same p)
    (hrest : rest.map Chain.points = done.map trace) :
    (segments.foldl plot (c :: rest)).reverse.map Chain.points =
      (List.splitBy.loop Segment.leadsTo segments latest before done).map trace := by
  induction segments generalizing latest before done c rest with
  | nil => simp [List.splitBy.loop, hc, hrest]
  | cons s segments ih =>
    rw [List.foldl_cons, plot, htip, List.splitBy.loop, Segment.leadsTo]
    cases latest.stop.same s.start with
    | true =>
      apply ih _ (Chain.same_tip_extend c s.stop) hrest
      rw [Chain.points_extend, hc, htip, List.reverse_cons, List.append_assoc]
      exact (trace_append_pair ..).symm
    | false =>
      apply ih (Chain.points_ofSegment s) (Chain.same_tip_extend _ s.stop)
      simp [hc, hrest]

theorem map_points_eq_map_trace (segments : List Segment) :
    (segments.foldl plot []).reverse.map Chain.points = (blocks segments).map trace := by
  cases segments with
  | nil => rfl
  | cons s segments =>
    have hbegin : (Chain.ofSegment s).points = trace ([].reverse ++ [s]) := Chain.points_ofSegment s
    have hnone : ([] : List Chain).map Chain.points = ([] : List (List Segment)).map trace := rfl
    exact map_points_foldl_plot segments hbegin (Chain.same_tip_extend _ s.stop) hnone

theorem polylines_eq_tracedLines (segments : List Segment) :
    polylines (segments.foldl plot []) = tracedLines segments := by
  rw [polylines, map_points_eq_map_trace, tracedLines]

end Surface

/-- A pair of neighbours is what a plotter draws for a segment: it ends at the end of the segment,
and starts at its start or at an equal point. -/
structure Segment.IsDrawnAs (s : Segment) (pair : Point × Point) : Prop where
  start : pair.1 = s.start ∨ pair.1.same s.start = true
  stop : pair.2 = s.stop

namespace Surface

theorem isDrawnAs_pairs (segments : List Segment) :
    List.Forall₂ Segment.IsDrawnAs (segments.filter fun s => !s.isDot)
      (pairs (segments.foldl plot [])) := by
  induction segments using List.reverseRecOn with
  | nil => exact .nil
  | append_singleton segments s ih =>
    obtain ⟨p, hp, hpairs⟩ := pairs_plot (segments.foldl plot []) s
    rw [List.foldl_append, List.filter_append, List.foldl_cons, List.foldl_nil, hpairs]
    apply List.rel_append ih
    cases hdot : s.isDot with
    | true => simp [hdot]
    | false =>
      have hdrawn : s.IsDrawnAs (p, s.stop) := ⟨hp.imp id And.left, rfl⟩
      simpa [hdot] using hdrawn

theorem drawAll_plotter (chains : List Chain) (segments : List Segment) :
    (plotter chains).drawAll segments = .plotter (segments.foldl plot chains) := by
  induction segments generalizing chains with
  | nil => rfl
  | cons s segments ih => exact ih (plot chains s)

/-- After any segments, the polylines of a plotter that was blank are the traces of the blocks into
which the segments are cut. So the pairs of neighbours along them are the segments that have a
length, in the order in which they were drawn; neighbours differ; and one more segment only adds
points to the latest chain or opens a new one. -/
theorem plotter_traces_blocks (segments : List Segment) :
    ∃ chains, (plotter []).drawAll segments = .plotter chains ∧
      polylines chains = tracedLines segments ∧
      List.Forall₂ Segment.IsDrawnAs (segments.filter fun s => !s.isDot)
        ((polylines chains).flatMap consecutivePairs) ∧
      (∀ line ∈ polylines chains, line.IsChain fun p q => p.same q = false) ∧
      ∀ s, ∃ later, (plotter chains).draw s = .plotter later ∧ Chain.GrowTo chains later := by
  refine ⟨segments.foldl plot [], drawAll_plotter [] segments, polylines_eq_tracedLines segments,
    ?_, ?_, ?_⟩
  · rw [flatMap_polylines]
    exact isDrawnAs_pairs segments
  · intro line hline
    obtain ⟨c, hc, rfl⟩ := List.mem_map.mp (List.mem_filter.mp hline).1
    exact isProper_foldl_plot segments c (List.mem_reverse.mp hc)
  · intro s
    exact ⟨_, rfl, growTo_plot _ s⟩

end Surface
end BracketTurtle
