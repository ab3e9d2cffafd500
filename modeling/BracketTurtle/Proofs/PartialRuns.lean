import BracketTurtle.Drawing.Surface
import BracketTurtle.Proofs.Walks

/-!
# Partial results

What a run draws is the same on every canvas, and a canvas only ever gains by it. A run that faults
has done exactly what the run of the commands before the fault does, and nothing of the command that
faults or of those after it.
-/

namespace BracketTurtle

namespace Coordinate

/-- Pixels are integers, hence finite. -/
def IsFinite : Coordinate → Prop
  | .pixel _ => True
  | .exact x => x.isFinite = true

end Coordinate

def Point.IsFinite (p : Point) : Prop := p.x.IsFinite ∧ p.y.IsFinite

def Segment.IsFinite (s : Segment) : Prop := s.start.IsFinite ∧ s.stop.IsFinite

namespace Surface

/-- The later surface still has all that was on the earlier one. A recorder keeps its segments; a
plotter keeps its chains, of which only the latest may have become longer. -/
inductive KeptIn : Surface → Surface → Prop
  | recorder (drawn more : List Segment) : KeptIn (.recorder drawn) (.recorder (more ++ drawn))
  | blank (chains : List Chain) : KeptIn (.plotter []) (.plotter chains)
  | plotter {chain longer : Chain} (rest more : List Chain) :
      chain.points <+: longer.points →
        KeptIn (.plotter (chain :: rest)) (.plotter (more ++ longer :: rest))

namespace KeptIn

theorem refl (surface : Surface) : KeptIn surface surface := by
  cases surface with
  | recorder drawn => exact .recorder drawn []
  | plotter chains =>
    cases chains with
    | nil => exact .blank []
    | cons chain rest => exact .plotter rest [] (List.prefix_refl _)

theorem draw {before after : Surface} (h : KeptIn before after) (s : Segment) :
    KeptIn before (after.draw s) := by
  cases h with
  | recorder drawn more => exact .recorder drawn (s :: more)
  | blank chains => exact .blank _
  | @plotter chain longer rest more hpre =>
    cases more with
    | nil =>
      simp only [Surface.draw, List.nil_append, plot]
      split
      · apply KeptIn.plotter rest []
        apply hpre.trans
        cases hs : longer.tip.same s.stop with
        | true => rw [Chain.points_extend_of_same hs]
        | false =>
          rw [Chain.points_extend_of_not_same hs]
          exact List.prefix_append ..
      · exact .plotter rest [.ofSegment s] hpre
    | cons latest more =>
      simp only [Surface.draw, List.cons_append, plot]
      split
      · exact .plotter rest (latest.extend s.stop :: more) hpre
      · exact .plotter rest (.ofSegment s :: latest :: more) hpre

theorem drawAll (surface : Surface) (segments : List Segment) :
    KeptIn surface (surface.drawAll segments) := by
  induction segments using List.reverseRecOn with
  | nil => exact refl surface
  | append_singleton segments s ih =>
    rw [Surface.drawAll_append]
    exact ih.draw s

end KeptIn
end Surface

variable {A : Arithmetic} {c : Course}

theorem Course.isFinite_of_point {p : Pen} {a : Point} (h : c.point A p = .ok a) : a.IsFinite := by
  simp only [point] at h
  split at h
  · rename_i hp
    split at h
    · split at h
      · cases h
        exact ⟨trivial, trivial⟩
      · cases h
    · cases h
      exact Bool.and_eq_true_iff.mp hp
  · cases h

theorem isFinite_of_run {w : Word} {start : Pen} {s : Segment}
    (h : s ∈ (c.run A w start).segments) : s.IsFinite := by
  obtain ⟨p, q, hstroke⟩ := exists_stroke_of_run h
  obtain ⟨hstart, _, hstop⟩ := Course.stroke_eq_ok hstroke
  exact ⟨Course.isFinite_of_point hstart, Course.isFinite_of_point hstop⟩

/-- What the commands before an index draw comes first, and is as many segments as there are drawing
commands among them. -/
theorem segments_take_of_walk {p q : Pen} {kept : List Pen} {w : Word} {d : List Segment}
    (h : Walk A c p [] w d q kept) (j : ℕ) :
    (c.run A (w.take j) p).segments = d.take ((w.take j).countP Command.draws) := by
  rw [← List.take_append_drop j w] at h
  obtain ⟨r, left, d₁, d₂, hfront, _, rfl⟩ := h.of_append
  rw [segments_of_walk hfront, ← hfront.length_drawn, List.take_left]

/-- The command at index `k` is the first of the word that faults: those before it can be carried
out, and the pen and the saved pens they lead to do not allow it. -/
def FirstFault (A : Arithmetic) (c : Course) (start : Pen) (w : Word) (k : ℕ) (e : Cause) : Prop :=
  ∃ d p saved cmd, Walk A c start [] (w.take k) d p saved ∧ w[k]? = some cmd ∧
    c.act A cmd p saved = .error e

theorem firstFault_append {start p : Pen} {saved : List Pen} {u v : Word} {cmd : Command}
    {d : List Segment} {e : Cause} (h : Walk A c start [] u d p saved)
    (he : c.act A cmd p saved = .error e) : FirstFault A c start (u ++ cmd :: v) u.length e :=
  ⟨d, p, saved, cmd, by rwa [List.take_left], by simp, he⟩

theorem FirstFault.exists_split {start : Pen} {w : Word} {k : ℕ} {e : Cause}
    (h : FirstFault A c start w k e) :
    ∃ d p saved cmd, w = w.take k ++ cmd :: w.drop (k + 1) ∧ (w.take k).length = k ∧
      Walk A c start [] (w.take k) d p saved ∧ c.act A cmd p saved = .error e := by
  obtain ⟨d, p, saved, cmd, hwalk, hcmd, he⟩ := h
  obtain ⟨hk, rfl⟩ := List.getElem?_eq_some_iff.mp hcmd
  refine ⟨d, p, saved, _, ?_, List.length_take_of_le hk.le, hwalk, he⟩
  rw [← List.drop_eq_getElem_cons hk, List.take_append_drop]

/-- A run with a first fault is the run of the commands before it, with that fault at its end. -/
theorem run_of_firstFault {start : Pen} {w : Word} {k : ℕ} {e : Cause}
    (h : FirstFault A c start w k e) :
    (c.run A (w.take k) start).fault = none ∧
      c.run A w start =
        { c.run A (w.take k) start with
          fault := some ⟨e, k, (c.run A (w.take k) start).drawn⟩ } := by
  obtain ⟨d, p, saved, cmd, hw, hk, hwalk, he⟩ := h.exists_split
  have hbefore : c.run A (w.take k) start = ⟨d.reverse, d.length, saved.length, none⟩ :=
    run_of_walk hwalk
  have hrun := run_of_fault (v := w.drop (k + 1)) hwalk he
  rw [← hw, hk] at hrun
  rw [hrun, hbefore]
  exact ⟨rfl, rfl⟩

theorem firstFault_of_run {start : Pen} {w : Word} {f : Fault}
    (h : (c.run A w start).fault = some f) : FirstFault A c start w f.position f.cause := by
  obtain ⟨u, cmd, v, d, p, saved, rfl, hu, he, hposition, _⟩ := walk_of_fault h
  rw [hposition]
  exact firstFault_append hu he

theorem run_of_fault_eq_none {start : Pen} {w : Word} (h : (c.run A w start).fault = none) :
    (c.run A w start).drawn = w.countP Command.draws ∧
      (c.run A w start).segments.length = w.countP Command.draws ∧
      ∀ j, (c.run A (w.take j) start).segments =
        (c.run A w start).segments.take ((w.take j).countP Command.draws) := by
  obtain ⟨d, p, saved, hwalk⟩ := walk_of_run h
  rw [segments_of_walk hwalk, run_of_walk hwalk]
  exact ⟨hwalk.length_drawn, hwalk.length_drawn, segments_take_of_walk hwalk⟩

theorem fault_eq_none {start : Pen} {w : Word} (h : ∀ k e, ¬FirstFault A c start w k e) :
    (c.run A w start).fault = none := by
  rcases walk_cases A c w start [] with ⟨d, p, saved, hw⟩ | ⟨u, cmd, v, d, p, saved, e, rfl, hu, he⟩
  · rw [run_of_walk hw]
  · exact absurd (firstFault_append hu he) (h _ _)

/-- What a run leaves on a surface. The segments, the count and the fault do not depend on the
surface, which keeps all it had. If no command faults, every drawing command draws one segment, in
their order. If the command at index `k` is the first that faults, the run is that of the `k`
commands before, which ends without a fault, and the fault is reported with its index and with the
number of segments before it. -/
theorem partial_result (A : Arithmetic) (c : Course) (w : Word) (start : Pen) :
    let r := c.run A w start
    (∀ surface : Surface,
      c.runOn A Surface.draw surface w start =
          ⟨surface.drawAll r.segments, r.drawn, r.unmatched, r.fault⟩ ∧
        surface.KeptIn (surface.drawAll r.segments)) ∧
    (∀ s ∈ r.segments, s.IsFinite) ∧
    ((∀ k e, ¬FirstFault A c start w k e) →
      r.fault = none ∧ r.drawn = w.countP Command.draws ∧
        r.segments.length = w.countP Command.draws ∧
        ∀ j, (c.run A (w.take j) start).segments =
          r.segments.take ((w.take j).countP Command.draws)) ∧
    ∀ k e, FirstFault A c start w k e →
      let before := c.run A (w.take k) start
      before.fault = none ∧ before.drawn = (w.take k).countP Command.draws ∧
        before.segments.length = before.drawn ∧ r.segments = before.segments ∧
        r.drawn = before.drawn ∧ r.fault = some ⟨e, k, before.drawn⟩ := by
  intro r
  refine ⟨?_, ?_, ?_, ?_⟩
  · intro surface
    exact ⟨runOn_eq_run _ w start surface, .drawAll surface _⟩
  · intro s hs
    exact isFinite_of_run hs
  · intro hnone
    have hfault := fault_eq_none hnone
    exact ⟨hfault, run_of_fault_eq_none hfault⟩
  · intro k e hfirst before
    obtain ⟨hfault, hr⟩ := run_of_firstFault hfirst
    obtain ⟨hdrawn, hlength, _⟩ := run_of_fault_eq_none hfault
    have hrun : r = { before with fault := some ⟨e, k, before.drawn⟩ } := hr
    rw [hrun]
    exact ⟨hfault, hdrawn, hlength.trans hdrawn.symm, rfl, rfl, rfl⟩

theorem partial_result_unmatched_pop :
    let w : Word := [.forward, .forward, .pop, .forward]
    FirstFault straight.1 straight.2 .origin w 2 .noSavedPen ∧
      (straight.2.run straight.1 w .origin).fault = some ⟨.noSavedPen, 2, 2⟩ := by
  intro w
  have hfault : (straight.2.run straight.1 w .origin).fault = some ⟨.noSavedPen, 2, 2⟩ := by rfl
  have hfirst : FirstFault straight.1 straight.2 .origin w 2 .noSavedPen := firstFault_of_run hfault
  obtain ⟨_, hdrawn, _, _, _, hreported⟩ :=
    (partial_result straight.1 straight.2 w .origin).2.2.2 2 .noSavedPen hfirst
  rw [hdrawn] at hreported
  exact ⟨hfirst, hreported⟩

end BracketTurtle
