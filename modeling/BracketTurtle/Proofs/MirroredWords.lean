import BracketTurtle.Proofs.Opposites
import BracketTurtle.Proofs.Outcomes
import BracketTurtle.Proofs.Snapping

/-!
# Mirrored words

The mirrored word turns right where the word turns left. It does with a turn what the word does
with the opposite turn. From a mirrored pen, which stands and looks across the horizontal axis, it
draws the mirror image, point by point, as long as nothing is rounded to pixels: pen and saved
pens stay mirrored after every command, so that a command can be carried out on one side if it can
on the other. The cosine has to be even for this and the sine odd.
-/

namespace BracketTurtle

open Number (value? Opposite Value)

/-- The command for the other side. -/
def Command.mirrored : Command → Command
  | .right => .left
  | .left => .right
  | cmd => cmd

def Word.mirrored (w : Word) : Word := w.map Command.mirrored

/-! ## Opposite turns -/

namespace Course

/-- The same course with turns the other way. -/
def opposed (c : Course) : Course := { c with turn := -c.turn }

variable {A : Arithmetic} {c : Course}

theorem act_mirrored (A : Arithmetic) (c : Course) (cmd : Command) (p : Pen) (saved : List Pen) :
    c.act A cmd.mirrored p saved = c.opposed.act A cmd p saved := by
  cases cmd with
  | left =>
    rw [act, opposed, Number.neg_neg]
    rfl
  | _ => rfl

theorem follow_mirrored {σ : Type} (draw : σ → Segment → σ) (t : Turtle σ) (w : Word) :
    c.follow A draw t w.mirrored = c.opposed.follow A draw t w := by
  induction w generalizing t with
  | nil => rfl
  | cons cmd w ih =>
    have hadvance : c.advance A draw cmd.mirrored t = c.opposed.advance A draw cmd t := by
      rw [advance, act_mirrored, advance]
    rw [Word.mirrored, List.map_cons, follow, follow, hadvance]
    cases c.opposed.advance A draw cmd t with
    | ok t' => exact ih t'
    | error e => rfl

end Course

/-! ## Mirror images -/

/-- The even functions have one value for opposite numbers. -/
def IsEven (f : Float → Float) : Prop := ∀ x y, Opposite x y → value? (f x) = value? (f y)

/-- The odd functions have opposite values for opposite numbers. -/
def IsOdd (f : Float → Float) : Prop := ∀ x y, Opposite x y → Opposite (f x) (f y)

def Coordinate.neg : Coordinate → Coordinate
  | .pixel n => .pixel (-n)
  | .exact x => .exact (-x)

/-- The point across the horizontal axis. -/
def Point.mirrored (a : Point) : Point := ⟨a.x, a.y.neg⟩

def Pen.mirrored (p : Pen) : Pen := ⟨p.x, -p.y, -p.heading⟩

/-- The pens are mirror images, up to the signs of zeros. -/
structure Pen.Mirrors (p q : Pen) : Prop where
  x : value? q.x = value? p.x
  y : Opposite p.y q.y
  heading : Opposite p.heading q.heading

structure Segment.Mirrors (s t : Segment) : Prop where
  start : t.start.same s.start.mirrored = true
  stop : t.stop.same s.stop.mirrored = true

/-- The causes are of one class, and are found at mirrored positions. -/
inductive Cause.Mirrors : Cause → Cause → Prop
  | noSavedPen : Mirrors .noSavedPen .noSavedPen
  | notFinite {x y x' y' : Float} : value? x' = value? x → Opposite y y' →
      Mirrors (.notFinite x y) (.notFinite x' y')
  | pen (e : PenError) : Mirrors (.pen e) (.pen e)

/-- The faults have mirrored causes, at the same command and after as many segments. -/
structure Fault.Mirrors (f g : Fault) : Prop where
  cause : f.cause.Mirrors g.cause
  position : g.position = f.position
  drawn : g.drawn = f.drawn

namespace Pen

theorem move_rounded (cos sin : Float → Float) (d : Float) (p : Pen) :
    p.move (.rounded cos sin) d =
      if (p.heading * degree).isInf then .error .infiniteHeading
      else .ok ⟨p.x + d * cos (p.heading * degree), p.y + d * sin (p.heading * degree),
        p.heading⟩ :=
  rfl

theorem mirrors_mirrored (p : Pen) : p.Mirrors p.mirrored :=
  ⟨rfl, Number.opposite_neg _, Number.opposite_neg _⟩

namespace Mirrors

variable {cos sin : Float → Float} {p q : Pen}

theorem isFinite_eq (h : p.Mirrors q) : q.isFinite = p.isFinite := by
  have hx : q.x.isFinite = p.x.isFinite := by
    rw [Bool.eq_iff_iff, Number.isFinite_iff, Number.isFinite_iff, h.x]
  rw [isFinite, isFinite, hx, h.y.isFinite_eq]

theorem rotate (h : p.Mirrors q) {d d' : Float} (hd : Opposite d d') :
    (p.rotate (.rounded cos sin) d).Mirrors (q.rotate (.rounded cos sin) d') :=
  ⟨h.x, h.y, h.heading.add hd⟩

variable (hcos : IsEven cos) (hsin : IsOdd sin)
include hcos hsin

theorem move (h : p.Mirrors q) (distance : Float) :
    Alike Eq Mirrors (p.move (.rounded cos sin) distance) (q.move (.rounded cos sin) distance) := by
  have hangle : Opposite (p.heading * degree) (q.heading * degree) := h.heading.mul_left degree
  have hinf : (q.heading * degree).isInf = (p.heading * degree).isInf := hangle.isInf_eq
  rw [move_rounded, move_rounded, hinf]
  split_ifs
  · exact .error rfl
  · refine .ok ⟨?_, ?_, h.heading⟩
    · exact Number.value?_add_congr h.x (Number.value?_mul_congr rfl (hcos _ _ hangle).symm)
    · exact h.y.add ((hsin _ _ hangle).mul_right distance)

end Mirrors
end Pen

namespace Course

variable {cos sin : Float → Float} {p q : Pen}

theorem point_mirrors (step turn : Float) (h : p.Mirrors q) :
    Alike Cause.Mirrors (fun a b => b.same a.mirrored = true)
      ((free step turn).point (.rounded cos sin) p)
      ((free step turn).point (.rounded cos sin) q) := by
  rw [point, point, h.isFinite_eq]
  split_ifs with hp hsnap
  · cases hsnap
  · obtain ⟨hx, hy⟩ := Bool.and_eq_true_iff.mp hp
    obtain ⟨u, hu⟩ := Number.isFinite_iff.mp hx
    obtain ⟨v, hv⟩ := Number.isFinite_iff.mp hy
    have hopposite := congrArg (Option.map Value.neg) hv
    refine .ok (Bool.and_eq_true_iff.mpr ⟨?_, ?_⟩)
    · exact Coordinate.same_iff.mpr ⟨_, h.x.trans hu, hu⟩
    · exact Coordinate.same_iff.mpr
        ⟨_, h.y.trans hopposite, (Number.opposite_neg p.y).trans hopposite⟩
  · exact .error (.notFinite h.x h.y)

theorem stroke_eq_bind (A : Arithmetic) (c : Course) (p : Pen) :
    c.stroke A p = do
      let a ← c.point A p
      let q ← (p.move A c.step).mapError .pen
      let b ← c.point A q
      return (q, ⟨a, b⟩) := by
  unfold stroke
  cases c.point A p with
  | error e => rfl
  | ok a =>
    cases p.move A c.step with
    | error e => rfl
    | ok q =>
      simp only [Except.mapError, ok_bind]
      cases c.point A q with
      | error e => rfl
      | ok b => rfl

theorem act_of_draws (A : Arithmetic) (c : Course) {cmd : Command} (h : cmd.draws = true) (p : Pen)
    (saved : List Pen) :
    c.act A cmd p saved = (c.stroke A p).map fun a => (a.1, saved, some a.2) := by
  cases cmd with
  | forward | forward2 =>
    rw [act]
    cases c.stroke A p <;> rfl
  | _ => cases h

/-- What a command leaves and draws on one side mirrors what it does on the other. -/
structure Mirrored (a b : Pen × List Pen × Option Segment) : Prop where
  pen : a.1.Mirrors b.1
  saved : List.Forall₂ Pen.Mirrors a.2.1 b.2.1
  drawn : List.Forall₂ Segment.Mirrors a.2.2.toList b.2.2.toList

variable (hcos : IsEven cos) (hsin : IsOdd sin) (step turn : Float)
include hcos hsin

theorem stroke_mirrors (h : p.Mirrors q) :
    Alike Cause.Mirrors (fun a b => a.1.Mirrors b.1 ∧ a.2.Mirrors b.2)
      ((free step turn).stroke (.rounded cos sin) p)
      ((free step turn).stroke (.rounded cos sin) q) := by
  rw [stroke_eq_bind, stroke_eq_bind]
  apply (point_mirrors step turn h).bind
  intro a a' hstart
  have hmove := (h.move hcos hsin step).mapError (F := Cause.Mirrors) (f := .pen) (g := .pen)
    fun e e' he => he ▸ .pen e
  apply hmove.bind
  intro p' q' hmoved
  apply (point_mirrors step turn hmoved).bind
  intro b b' hstop
  exact .ok ⟨hmoved, hstart, hstop⟩

theorem act_mirrors (cmd : Command) {saved saved' : List Pen} (h : p.Mirrors q)
    (hsaved : List.Forall₂ Pen.Mirrors saved saved') :
    Alike Cause.Mirrors Mirrored ((free step turn).act (.rounded cos sin) cmd p saved)
      ((free step turn).act (.rounded cos sin) cmd.mirrored q saved') := by
  have hturn : Opposite (-turn) turn := by
    have hneg := Number.opposite_neg (-turn)
    rwa [Number.neg_neg] at hneg
  cases cmd with
  | forward | forward2 =>
    rw [act_of_draws _ _ rfl, act_of_draws _ _ rfl]
    exact (stroke_mirrors hcos hsin step turn h).map fun a b hab =>
      ⟨hab.1, hsaved, .cons hab.2 .nil⟩
  | ignore => exact .ok ⟨h, hsaved, .nil⟩
  | right => exact .ok ⟨h.rotate (Number.opposite_neg turn), hsaved, .nil⟩
  | left => exact .ok ⟨h.rotate hturn, hsaved, .nil⟩
  | push => exact .ok ⟨h, .cons h hsaved, .nil⟩
  | pop =>
    cases hsaved with
    | nil => exact .error .noSavedPen
    | cons htop hrest => exact .ok ⟨htop, hrest, .nil⟩

end Course

section

variable {cos sin : Float → Float} (hcos : IsEven cos) (hsin : IsOdd sin)
include hcos hsin

/-- A walk of the word has a mirror image that is a walk of the mirrored word. -/
theorem Walk.mirrored {step turn : Float} {p q r : Pen} {saved saved' left : List Pen} {w : Word}
    {d : List Segment} (hwalk : Walk (.rounded cos sin) (.free step turn) p saved w d r left)
    (h : p.Mirrors q) (hsaved : List.Forall₂ Pen.Mirrors saved saved') :
    ∃ d' r' left', Walk (.rounded cos sin) (.free step turn) q saved' w.mirrored d' r' left' ∧
      List.Forall₂ Segment.Mirrors d d' ∧ r.Mirrors r' ∧ List.Forall₂ Pen.Mirrors left left' := by
  induction hwalk generalizing q saved' with
  | nil => exact ⟨[], q, saved', .nil, .nil, h, hsaved⟩
  | @cons cmd w p p' r saved kept left s d hact _ ih =>
    have halike := Course.act_mirrors hcos hsin step turn cmd h hsaved
    rw [hact] at halike
    obtain ⟨⟨q', kept', t⟩, hact', hstep⟩ := halike.of_ok
    obtain ⟨d', r', left', hwalk', hdrawn, hr, hleft⟩ := ih hstep.pen hstep.saved
    exact ⟨_, r', left', .cons hact' hwalk', List.rel_append hstep.drawn hdrawn, hr, hleft⟩

/-- A free run of the mirrored word from the mirrored pen mirrors the run of the word. -/
theorem run_mirrored (step turn : Float) (w : Word) (start : Pen) :
    let r := (Course.free step turn).run (.rounded cos sin) w start
    let r' := (Course.free step turn).run (.rounded cos sin) w.mirrored start.mirrored
    List.Forall₂ Segment.Mirrors r.segments r'.segments ∧ r'.drawn = r.drawn ∧
      r'.unmatched = r.unmatched ∧ Option.Rel Fault.Mirrors r.fault r'.fault := by
  intro r r'
  rcases walk_cases (.rounded cos sin) (.free step turn) w start [] with
    ⟨d, p, kept, hwalk⟩ | ⟨u, cmd, v, d, p, kept, e, rfl, hwalk, he⟩
  · obtain ⟨d', q, kept', hwalk', hdrawn, _, hkept⟩ :=
      hwalk.mirrored hcos hsin start.mirrors_mirrored .nil
    have hr : r = ⟨d.reverse, d.length, kept.length, none⟩ := run_of_walk hwalk
    have hr' : r' = ⟨d'.reverse, d'.length, kept'.length, none⟩ := run_of_walk hwalk'
    rw [hr, hr', Run.segments, Run.segments, List.reverse_reverse, List.reverse_reverse]
    exact ⟨hdrawn, hdrawn.length_eq.symm, hkept.length_eq.symm, .none⟩
  · obtain ⟨d', q, kept', hwalk', hdrawn, hmirrors, hkept⟩ :=
      hwalk.mirrored hcos hsin start.mirrors_mirrored .nil
    have halike := Course.act_mirrors hcos hsin step turn cmd hmirrors hkept
    rw [he] at halike
    obtain ⟨e', he', hcause⟩ := halike.of_error
    have hword : Word.mirrored (u ++ cmd :: v) = u.mirrored ++ cmd.mirrored :: Word.mirrored v :=
      List.map_append
    have hr : r = ⟨d.reverse, d.length, kept.length, some ⟨e, u.length, d.length⟩⟩ :=
      run_of_fault hwalk he
    have hr' : r' =
        ⟨d'.reverse, d'.length, kept'.length, some ⟨e', u.mirrored.length, d'.length⟩⟩ := by
      simp only [r', hword, run_of_fault hwalk' he']
    have hposition : u.mirrored.length = u.length := List.length_map _
    rw [hr, hr', Run.segments, Run.segments, List.reverse_reverse, List.reverse_reverse]
    exact ⟨hdrawn, hdrawn.length_eq.symm, hkept.length_eq.symm,
      .some ⟨hcause, hposition, hdrawn.length_eq.symm⟩⟩

end

/-- A turn to one side is the opposite turn to the other. On any canvas and in any arithmetic, the
mirrored word does with a turn what the word does with the opposite turn, and ends alike. Where
nothing is snapped and the cosine is even and the sine odd, the mirrored word draws from the
mirrored pen the mirror images of what the word draws, segment by segment and at both ends, equal
as numbers; it leaves as many saved pens and faults, if at all, for a cause of the same class, at
the same command and after as many segments. -/
theorem mirrored_word_draws_mirrored (w : Word) (start : Pen) :
    (∀ (A : Arithmetic) (c : Course) (σ : Type) (draw : σ → Segment → σ) (canvas : σ),
      c.runOn A draw canvas w.mirrored start =
        { c with turn := -c.turn }.runOn A draw canvas w start) ∧
    ∀ (cos sin : Float → Float) (step turn : Float), IsEven cos → IsOdd sin →
      let A := Arithmetic.rounded cos sin
      let r := (Course.free step turn).run A w start
      let r' := (Course.free step turn).run A w.mirrored start.mirrored
      List.Forall₂ Segment.Mirrors r.segments r'.segments ∧ r'.drawn = r.drawn ∧
        r'.unmatched = r.unmatched ∧ Option.Rel Fault.Mirrors r.fault r'.fault := by
  constructor
  · intro A c σ draw canvas
    rw [Course.runOn, Course.follow_mirrored]
    rfl
  · intro cos sin step turn hcos hsin
    exact run_mirrored hcos hsin step turn w start

/-- The cosine of zero and of a right angle to either side, as rounded. -/
def rightCosine (x : Float) : Float := if x < 0 ∨ 0 < x then 6.123233995736766e-17 else 1

def rightSine (x : Float) : Float := if 0 < x then 1 else if x < 0 then -1 else 0

theorem isEven_rightCosine : IsEven rightCosine := by
  intro x y h
  rw [rightCosine, rightCosine]
  simp only [h.lt_zero_iff, h.zero_lt_iff, or_comm]

theorem isOdd_rightSine : IsOdd rightSine := by
  intro x y h
  have hasymm : ¬(0 < x ∧ x < 0) := by
    rintro ⟨hpos, hneg⟩
    obtain ⟨v, w, hv, hw, hvw⟩ := Number.lt_iff.mp hpos
    obtain ⟨w', v', hw', hv', hwv⟩ := Number.lt_iff.mp hneg
    obtain rfl : v = v' := Option.some.inj (hv.symm.trans hv')
    obtain rfl : w = w' := Option.some.inj (hw.symm.trans hw')
    exact lt_asymm hvw hwv
  rw [rightSine, rightSine]
  simp only [h.lt_zero_iff, h.zero_lt_iff]
  split_ifs with hpos hneg hneg
  · exact absurd ⟨hpos, hneg⟩ hasymm
  · exact Number.opposite_neg 1
  · exact (Number.opposite_neg 1).symm
  · exact Opposite.zero_zero

/-- Two strokes around a corner, and a `pop` with nothing saved. -/
theorem corner_draws_mirrored :
    IsEven rightCosine ∧ IsOdd rightSine ∧
      let r := (Course.free 8 90).run (.rounded rightCosine rightSine)
        [.forward, .right, .forward, .pop] .origin
      let r' := (Course.free 8 90).run (.rounded rightCosine rightSine)
        [.forward, .left, .forward, .pop] ⟨0, -0, -0⟩
      (r.drawn = 2 ∧ r.fault.map Fault.position = some 3) ∧
        List.Forall₂ Segment.Mirrors r.segments r'.segments ∧ r'.drawn = r.drawn ∧
          r'.unmatched = r.unmatched ∧ Option.Rel Fault.Mirrors r.fault r'.fault :=
  ⟨isEven_rightCosine, isOdd_rightSine, by decide +kernel,
    (mirrored_word_draws_mirrored [.forward, .right, .forward, .pop] .origin).2 _ _ 8 90
      isEven_rightCosine isOdd_rightSine⟩

end BracketTurtle
