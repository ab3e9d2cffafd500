import BracketTurtle.Proofs.Faults

/-!
# Snapping

A turtle on the pixel grid draws the pixels of the points at which it would draw otherwise. Nothing
else depends on the grid: the pen and the saved pens are the same after every command, no command
faults for the sake of a pixel, and a run counts and ends as it does without the grid.
-/

namespace BracketTurtle

/-- The second point has the rounded coordinates of the first, which are doubles. -/
inductive Point.SnapsTo (A : Arithmetic) : Point → Point → Prop
  | rounded {x y : Float} {m n : ℤ} : roundHalfUp A x = .ok m → roundHalfUp A y = .ok n →
      SnapsTo A ⟨.exact x, .exact y⟩ ⟨.pixel m, .pixel n⟩

structure Segment.SnapsTo (A : Arithmetic) (s t : Segment) : Prop where
  start : s.start.SnapsTo A t.start
  stop : s.stop.SnapsTo A t.stop

namespace Course

/-- A course that draws where the pen is. -/
def free (step turn : Float) : Course := ⟨step, turn, false⟩

/-- The same course on the pixel grid. -/
def gridded (step turn : Float) : Course := ⟨step, turn, true⟩

variable {cos sin : Float → Float} {step turn : Float} {p q : Pen} {e : Cause}

theorem point_gridded {a : Point} (h : (free step turn).point (.rounded cos sin) p = .ok a) :
    ∃ b, (gridded step turn).point (.rounded cos sin) p = .ok b ∧
      a.SnapsTo (.rounded cos sin) b := by
  cases hfinite : p.isFinite with
  | false =>
    rw [point, hfinite] at h
    cases h
  | true =>
    rw [point, hfinite] at h
    cases h
    obtain ⟨hx, hy⟩ := Bool.and_eq_true_iff.mp hfinite
    obtain ⟨m, hm⟩ := roundHalfUp_of_isFinite cos sin hx
    obtain ⟨n, hn⟩ := roundHalfUp_of_isFinite cos sin hy
    refine ⟨⟨.pixel m, .pixel n⟩, ?_, .rounded hm hn⟩
    rw [point, hfinite, Pen.pixel, hm, hn]
    rfl

theorem point_gridded_error (h : (free step turn).point (.rounded cos sin) p = .error e) :
    (gridded step turn).point (.rounded cos sin) p = .error e := by
  cases hfinite : p.isFinite with
  | false =>
    rw [point, hfinite] at h ⊢
    exact h
  | true =>
    rw [point, hfinite] at h
    cases h

theorem stroke_gridded {s : Segment}
    (h : (free step turn).stroke (.rounded cos sin) p = .ok (q, s)) :
    ∃ t, (gridded step turn).stroke (.rounded cos sin) p = .ok (q, t) ∧
      s.SnapsTo (.rounded cos sin) t := by
  obtain ⟨hstart, hmove, hstop⟩ := stroke_eq_ok h
  obtain ⟨a, ha, hsnapped⟩ := point_gridded hstart
  obtain ⟨b, hb, hsnapped'⟩ := point_gridded hstop
  have hmove' : p.move (.rounded cos sin) (gridded step turn).step = .ok q := hmove
  refine ⟨⟨a, b⟩, ?_, hsnapped, hsnapped'⟩
  simp only [stroke, ha, hmove', hb]

theorem stroke_gridded_error (h : (free step turn).stroke (.rounded cos sin) p = .error e) :
    (gridded step turn).stroke (.rounded cos sin) p = .error e := by
  simp only [stroke] at h
  split at h
  · rename_i hpoint
    cases h
    simp only [stroke, point_gridded_error hpoint]
  · rename_i hpoint
    obtain ⟨a, ha, _⟩ := point_gridded hpoint
    split at h
    · rename_i hmove
      have hmove' : p.move (.rounded cos sin) (gridded step turn).step = .error _ := hmove
      cases h
      simp only [stroke, ha, hmove']
    · rename_i hmove
      have hmove' : p.move (.rounded cos sin) (gridded step turn).step = .ok _ := hmove
      split at h
      · rename_i hpoint'
        cases h
        simp only [stroke, ha, hmove', point_gridded_error hpoint']
      · cases h

/-- On the grid a command does the same to the pen and the saved pens, and draws the snapped
segment. -/
theorem act_gridded {cmd : Command} {saved kept : List Pen} {s : Option Segment}
    (h : (free step turn).act (.rounded cos sin) cmd p saved = .ok (q, kept, s)) :
    ∃ t, (gridded step turn).act (.rounded cos sin) cmd p saved = .ok (q, kept, t) ∧
      List.Forall₂ (Segment.SnapsTo (.rounded cos sin)) s.toList t.toList := by
  cases acts_of_act h with
  | forward hs | forward2 hs =>
    obtain ⟨t, ht, hsnapped⟩ := stroke_gridded hs
    refine ⟨some t, ?_, .cons hsnapped .nil⟩
    simp only [act, ht]
  | _ => exact ⟨none, rfl, .nil⟩

theorem act_gridded_error {cmd : Command} {saved : List Pen}
    (h : (free step turn).act (.rounded cos sin) cmd p saved = .error e) :
    (gridded step turn).act (.rounded cos sin) cmd p saved = .error e :=
  act_eq_error_iff.mpr ((act_eq_error_iff.mp h).imp id fun hstroke =>
    ⟨hstroke.1, stroke_gridded_error hstroke.2⟩)

end Course

theorem Walk.gridded {cos sin : Float → Float} {step turn : Float} {p q : Pen}
    {saved kept : List Pen} {w : Word} {d : List Segment}
    (h : Walk (.rounded cos sin) (.free step turn) p saved w d q kept) :
    ∃ d', Walk (.rounded cos sin) (.gridded step turn) p saved w d' q kept ∧
      List.Forall₂ (Segment.SnapsTo (.rounded cos sin)) d d' := by
  induction h with
  | nil => exact ⟨[], .nil, .nil⟩
  | cons hact _ ih =>
    obtain ⟨t, ht, hsnapped⟩ := Course.act_gridded hact
    obtain ⟨d', hwalk, hsnapped'⟩ := ih
    exact ⟨_, .cons ht hwalk, List.rel_append hsnapped hsnapped'⟩

/-- A run on the grid is the free run, but for the segments. -/
theorem run_gridded (cos sin : Float → Float) (step turn : Float) (w : Word) (start : Pen) :
    let free := (Course.free step turn).run (.rounded cos sin) w start
    ∃ d, (Course.gridded step turn).run (.rounded cos sin) w start =
        ⟨d.reverse, free.drawn, free.unmatched, free.fault⟩ ∧
      List.Forall₂ (Segment.SnapsTo (.rounded cos sin)) free.segments d := by
  intro free
  rcases walk_cases (.rounded cos sin) (.free step turn) w start [] with
    ⟨d, q, kept, hwalk⟩ | ⟨u, cmd, v, d, q, kept, e, rfl, hwalk, he⟩
  · obtain ⟨d', hwalk', hsnapped⟩ := hwalk.gridded
    have hfree : free = ⟨d.reverse, d.length, kept.length, none⟩ := run_of_walk hwalk
    refine ⟨d', ?_, ?_⟩
    · rw [run_of_walk hwalk', hfree, hsnapped.length_eq]
    · rwa [hfree, Run.segments, List.reverse_reverse]
  · obtain ⟨d', hwalk', hsnapped⟩ := hwalk.gridded
    have hfree : free = ⟨d.reverse, d.length, kept.length, some ⟨e, u.length, d.length⟩⟩ :=
      run_of_fault hwalk he
    refine ⟨d', ?_, ?_⟩
    · rw [run_of_fault hwalk' (Course.act_gridded_error he), hfree, hsnapped.length_eq]
    · rwa [hfree, Run.segments, List.reverse_reverse]

/-- Snapping only rounds what is drawn. On the grid a run counts as many segments, leaves as many
saved pens and ends with the same fault, if any, as a free run does, and each of its segments has
the rounded coordinates of the free one in its place. No run faults for want of a pixel. -/
theorem snapping_rounds (cos sin : Float → Float) (step turn : Float) (w : Word) (start : Pen) :
    let A := Arithmetic.rounded cos sin
    let free := (Course.free step turn).run A w start
    let gridded := (Course.gridded step turn).run A w start
    gridded.fault = free.fault ∧ gridded.drawn = free.drawn ∧ gridded.unmatched = free.unmatched ∧
      List.Forall₂ (Segment.SnapsTo A) free.segments gridded.segments ∧
      ∀ f, gridded.fault = some f →
        f.cause ≠ .pen .pixelOfNaN ∧ f.cause ≠ .pen .pixelOfInfinity := by
  intro A free gridded
  obtain ⟨d, hrun, hsnapped⟩ := run_gridded cos sin step turn w start
  have hgridded : gridded = ⟨d.reverse, free.drawn, free.unmatched, free.fault⟩ := hrun
  refine ⟨by rw [hgridded], by rw [hgridded], by rw [hgridded], ?_, ?_⟩
  · have hsegments : gridded.segments = d := by
      rw [hgridded, Run.segments, List.reverse_reverse]
    rwa [hsegments]
  · intro f hf
    have hpixel {e : PenError} (he : e ≠ .infiniteHeading) : f.cause ≠ .pen e := by
      intro hcause
      rcases (firstFault_of_run hf).isOwn_or with hown | ⟨hinfinite, _⟩
      · rw [hcause] at hown
        exact hown
      · rw [hcause] at hinfinite
        cases hinfinite
        exact he rfl
    exact ⟨hpixel (by simp), hpixel (by simp)⟩

end BracketTurtle
