import BracketTurtle.Proofs.Depths
import BracketTurtle.Proofs.Plotting
import BracketTurtle.Proofs.WholeBounds

/-!
# Modest runs

A turtle that takes whole steps, and not too many of them, stays near its start whatever it turns
by: each draw widens the bounds of its position by one step, and rounding does not lead across a
whole bound. So its runs fault only where a branch is closed that is not open, and on the pixel grid
they draw between small pixels. Little is asked of cosines and sines for all this.
-/

namespace BracketTurtle

/-- What is asked of cosine and sine: both keep between -1 and 1, and no angle brings both near to
zero. -/
structure IsCircular (cos sin : Float → Float) : Prop where
  cos_between : ∀ x : Float, x.isFinite = true → -1 ≤ cos x ∧ cos x ≤ 1
  sin_between : ∀ x : Float, x.isFinite = true → -1 ≤ sin x ∧ sin x ≤ 1
  apart : ∀ x : Float, x.isFinite = true →
    (cos x ≤ -0.7 ∨ 0.7 ≤ cos x) ∨ sin x ≤ -0.7 ∨ 0.7 ≤ sin x

/-! ## Steps -/

namespace Number

theorem value?_one : value? 1 = some (.ofRat 1) := by
  have h := value?_ofNat_of_lt (n := 1) (by norm_num)
  rwa [Nat.cast_one] at h

theorem exists_value?_seventy : ∃ q : ℚ, value? 0.7 = some (.ofRat q) ∧ 3 / 5 ≤ q := by
  have hexact : exact 0.7 = .finite false ⟨6305039478318694, -53⟩ := by rfl
  refine ⟨6305039478318694 * 2 ^ (-53 : ℤ), ?_, by norm_num⟩
  rw [value?, hexact]
  rfl

section

variable {r : Float} (hr : -1 ≤ r ∧ r ≤ 1)
include hr

theorem exists_unit : ∃ u, value? r = some (.ofRat u) ∧ |u| ≤ 1 := by
  obtain ⟨u, hu, hlow, hhigh⟩ :=
    exists_fraction_between (value?_neg value?_one) value?_one hr.1 hr.2
  exact ⟨u, hu, abs_le.mpr ⟨hlow, hhigh⟩⟩

variable {step : Float} {s : ℕ} (hstep : value? step = some (.ofRat s)) (hs : s < 2 ^ 53)
include hstep hs

theorem isBetween_step : IsBetween (step * r) (-s) s := by
  obtain ⟨u, hu, hunit⟩ := exists_unit hr
  have hprod : |(s : ℚ) * u| ≤ s := by
    rw [abs_mul, Nat.abs_cast]
    exact mul_le_of_le_one_right (Nat.cast_nonneg s) hunit
  obtain ⟨hlow, hhigh⟩ := abs_le.mp hprod
  refine .of_rounded (value?_mul hstep hu) (abs_lt.mpr ⟨by omega, by omega⟩)
    (abs_lt.mpr ⟨by omega, by omega⟩) ?_ ?_
  · push_cast
    exact hlow
  · exact hhigh

/-- A step of five or more, for the most part in one direction, leads three ahead or farther. -/
theorem far_of_step (hfive : 5 ≤ s) (hapart : r ≤ -0.7 ∨ 0.7 ≤ r) :
    IsBetween (step * r) (-s) (-3) ∨ IsBetween (step * r) 3 s := by
  obtain ⟨u, hu, hunit⟩ := exists_unit hr
  obtain ⟨hlow, hhigh⟩ := abs_le.mp hunit
  obtain ⟨v, hv, hv'⟩ := exists_value?_seventy
  have hfive' : (5 : ℚ) ≤ s := by exact_mod_cast hfive
  rcases hapart with h | h
  · have hle : u ≤ -v := fraction_le hu (value?_neg hv) h
    refine .inl (.of_rounded (value?_mul hstep hu) (abs_lt.mpr ⟨by omega, by omega⟩) (by norm_num)
      ?_ ?_)
    · push_cast
      nlinarith
    · push_cast
      nlinarith
  · have hle : v ≤ u := fraction_le hv hu h
    refine .inr (.of_rounded (value?_mul hstep hu) (by norm_num) (abs_lt.mpr ⟨by omega, by omega⟩)
      ?_ ?_)
    · push_cast
      nlinarith
    · rw [Int.cast_natCast]
      nlinarith

end

end Number

open Number (value? Value IsBetween)

variable {cos sin : Float → Float}

namespace Pen

/-- The position of a pen is within a whole distance from the origin along both axes. -/
def PositionWithin (p : Pen) (b : ℕ) : Prop := IsBetween p.x (-b) b ∧ IsBetween p.y (-b) b

theorem PositionWithin.isFinite {p : Pen} {b : ℕ} (h : p.PositionWithin b) : p.isFinite = true :=
  Bool.and_eq_true_iff.mpr ⟨h.1.isFinite, h.2.isFinite⟩

theorem PositionWithin.mono {p : Pen} {b b' : ℕ} (h : p.PositionWithin b) (hb : b ≤ b') :
    p.PositionWithin b' :=
  ⟨h.1.mono (by omega) (by omega), h.2.mono (by omega) (by omega)⟩

theorem move_of_isFinite (cos sin : Float → Float) (distance : Float) {p : Pen}
    (h : p.heading.isFinite = true) :
    p.move (.rounded cos sin) distance =
      .ok ⟨p.x + distance * cos (p.heading * degree), p.y + distance * sin (p.heading * degree),
        p.heading⟩ :=
  if_neg (Number.not_isInf_of_isFinite (Number.isFinite_mul_degree h))

section

variable (hcircular : IsCircular cos sin) {step : Float} {s : ℕ}
  (hstep : value? step = some (.ofRat s)) {p q : Pen} (hheading : p.heading.isFinite = true)
  (hmove : p.move (.rounded cos sin) step = .ok q)
include hcircular hstep hheading hmove

theorem PositionWithin.move {b : ℕ} (hp : p.PositionWithin b) (hreach : b + s < 2 ^ 53) :
    q.PositionWithin (b + s) := by
  have hangle := Number.isFinite_mul_degree hheading
  have hx := Number.isBetween_step (hcircular.cos_between _ hangle) hstep (by omega)
  have hy := Number.isBetween_step (hcircular.sin_between _ hangle) hstep (by omega)
  have hlow : |(-b + -s : ℤ)| < 2 ^ 53 := abs_lt.mpr ⟨by omega, by omega⟩
  have hhigh : |(b + s : ℤ)| < 2 ^ 53 := abs_lt.mpr ⟨by omega, by omega⟩
  rw [move_of_isFinite cos sin step hheading] at hmove
  cases hmove
  have hneg : (-((b + s : ℕ) : ℤ)) = -b + -s := by
    push_cast
    ring
  rw [PositionWithin, hneg, Nat.cast_add]
  exact ⟨hp.1.add hx hlow hhigh, hp.2.add hy hlow hhigh⟩

theorem far_of_move (hp : p.PositionWithin 0) (hfive : 5 ≤ s) (hreach : s < 2 ^ 53) :
    (IsBetween q.x (-s) (-3) ∨ IsBetween q.x 3 s) ∨
      IsBetween q.y (-s) (-3) ∨ IsBetween q.y 3 s := by
  have hangle := Number.isFinite_mul_degree hheading
  have hfrom {x d : Float} (hx : IsBetween x 0 0) (hd : IsBetween d (-s) (-3) ∨ IsBetween d 3 s) :
      IsBetween (x + d) (-s) (-3) ∨ IsBetween (x + d) 3 s := by
    refine hd.imp (fun h => ?_) fun h => ?_
    · simpa using hx.add h (abs_lt.mpr ⟨by omega, by omega⟩) (by norm_num)
    · simpa using hx.add h (by norm_num) (abs_lt.mpr ⟨by omega, by omega⟩)
  rw [move_of_isFinite cos sin step hheading] at hmove
  cases hmove
  refine (hcircular.apart _ hangle).imp (fun h => ?_) fun h => ?_
  · exact hfrom hp.1 (Number.far_of_step (hcircular.cos_between _ hangle) hstep hreach hfive h)
  · exact hfrom hp.2 (Number.far_of_step (hcircular.sin_between _ hangle) hstep hreach hfive h)

end

end Pen

theorem Course.exists_stroke (c : Course) {p q : Pen} (hp : p.isFinite = true)
    (hmove : p.move (.rounded cos sin) c.step = .ok q) (hq : q.isFinite = true) :
    ∃ s, c.stroke (.rounded cos sin) p = .ok (q, s) := by
  rcases c.point_cases cos sin p with ⟨_, a, ha⟩ | ⟨hfalse, _⟩
  · rcases c.point_cases cos sin q with ⟨_, b, hb⟩ | ⟨hfalse, _⟩
    · refine ⟨⟨a, b⟩, ?_⟩
      rw [stroke, ha, hmove]
      simp only [hb]
    · cases hq.symm.trans hfalse
  · cases hp.symm.trans hfalse

/-! ## Runs -/

/-- Whole steps that lead no farther along a word than whole numbers are doubles, and turns that do
not lead beyond the doubles. -/
structure IsModest (c : Course) (start : Pen) (w : Word) (s b : ℕ) : Prop where
  step : value? c.step = some (.ofRat s)
  position : start.PositionWithin b
  reach : b + w.countP Command.draws * s + 1 < 2 ^ 53
  turns : ∃ q t, value? start.heading = some (.ofRat q) ∧ value? c.turn = some (.ofRat t) ∧
    |q| + w.countP Command.turns * (|t| + Number.halfPlace) < Number.limit

theorem Course.positionWithin_of_act (hcircular : IsCircular cos sin) {c : Course} {s b : ℕ}
    (hstep : value? c.step = some (.ofRat s)) {cmd : Command} {p q : Pen} {saved kept : List Pen}
    {drawn : Option Segment} (h : c.act (.rounded cos sin) cmd p saved = .ok (q, kept, drawn))
    (hheading : p.heading.isFinite = true) (hreach : b + (if cmd.draws then s else 0) < 2 ^ 53)
    (hbefore : ∀ r ∈ p :: saved, r.PositionWithin b) :
    ∀ r ∈ q :: kept, r.PositionWithin (b + if cmd.draws then s else 0) := by
  have hp := hbefore p List.mem_cons_self
  have hsaved {r : Pen} (hr : r ∈ saved) := hbefore r (List.mem_cons_of_mem _ hr)
  cases acts_of_act h with
  | forward hs | forward2 hs =>
    have hmove := hp.move hcircular hstep hheading (stroke_eq_ok hs).2.1 hreach
    exact List.forall_mem_cons.mpr ⟨hmove, fun r hr => (hsaved hr).mono (Nat.le_add_right b _)⟩
  | ignore => exact hbefore
  | right | left => exact List.forall_mem_cons.mpr ⟨hp, fun r hr => hsaved hr⟩
  | push => exact List.forall_mem_cons.mpr ⟨hp, hbefore⟩
  | pop => exact fun r hr => hsaved hr

namespace IsModest

variable {c : Course} {start p : Pen} {saved : List Pen} {w : Word} {d : List Segment} {s b : ℕ}

theorem of_prefix (h : IsModest c start w s b) {u : Word} (hu : u <+: w) :
    IsModest c start u s b := by
  obtain ⟨q, t, hq, ht, hturns⟩ := h.turns
  have hdraws : u.countP Command.draws ≤ w.countP Command.draws := hu.sublist.countP_le
  have hle : (u.countP Command.turns : ℚ) ≤ w.countP Command.turns := by
    exact_mod_cast hu.sublist.countP_le
  have hwidth : 0 ≤ |t| + Number.halfPlace := add_nonneg (abs_nonneg t) Number.halfPlace_pos.le
  refine ⟨h.step, h.position, lt_of_le_of_lt ?_ h.reach, q, t, hq, ht, lt_of_le_of_lt ?_ hturns⟩
  · gcongr
  · gcongr

theorem isFinite_heading (h : IsModest c start w s b)
    (hwalk : Walk (.rounded cos sin) c start [] w d p saved) : p.heading.isFinite = true := by
  obtain ⟨q, t, hq, ht, hturns⟩ := h.turns
  have hstart : ∀ r ∈ [start], r.HeadingWithin |q| := by
    rw [List.forall_mem_singleton]
    exact ⟨q, hq, le_rfl⟩
  obtain ⟨r, hr, _⟩ := hwalk.headingWithin ht hturns hstart p List.mem_cons_self
  exact Number.isFinite_iff.mpr ⟨r, hr⟩

theorem countP_draws_append (u : Word) (cmd : Command) (s : ℕ) :
    (u ++ [cmd]).countP Command.draws * s =
      u.countP Command.draws * s + if cmd.draws then s else 0 := by
  rw [List.countP_append, List.countP_singleton, Nat.add_mul]
  split_ifs
  · rw [Nat.one_mul]
  · rw [Nat.zero_mul]

variable (hcircular : IsCircular cos sin)
include hcircular

/-- Along a walk the pen and the saved pens stay within the bound, widened once for every draw. -/
theorem positionWithin (h : IsModest c start w s b)
    (hwalk : Walk (.rounded cos sin) c start [] w d p saved) :
    ∀ r ∈ p :: saved, r.PositionWithin (b + w.countP Command.draws * s) := by
  induction w using List.reverseRecOn generalizing d p saved with
  | nil =>
    cases hwalk
    simpa using h.position
  | append_singleton u cmd ih =>
    have hu := h.of_prefix (List.prefix_append u [cmd])
    have hreach := h.reach
    rw [countP_draws_append] at hreach ⊢
    rw [← Nat.add_assoc]
    obtain ⟨q, kept, d₁, d₂, hfront, hlast, rfl⟩ := hwalk.of_append
    cases hlast with
    | cons hact hnil =>
      cases hnil
      exact Course.positionWithin_of_act hcircular h.step hact (hu.isFinite_heading hfront)
        (by omega) (ih hu hfront)

/-- Only a branch that is closed without being open can end such a run early. -/
theorem fault_eq_none (h : IsModest c start w s b) {n : Nesting} (hnesting : w.nesting = .ok n) :
    (c.run (.rounded cos sin) w start).fault = none := by
  apply BracketTurtle.fault_eq_none
  intro k e hfirst
  obtain ⟨d, p, saved, cmd, hwalk, hcmd, he⟩ := id hfirst
  rcases Course.act_eq_error_iff.mp he with ⟨_, _, rfl⟩ | ⟨hdraws, hstroke⟩
  · have herror := Word.nesting_eq_error_iff.mpr (isFirstUnmatched_of_firstFault hfirst)
    cases hnesting.symm.trans herror
  · have hu := h.of_prefix (List.take_prefix k w)
    have hreach := (h.of_prefix (List.take_prefix (k + 1) w)).reach
    rw [List.take_add_one, hcmd, Option.toList_some, countP_draws_append, if_pos hdraws] at hreach
    have hp := hu.positionWithin hcircular hwalk p List.mem_cons_self
    have hheading := hu.isFinite_heading hwalk
    have hmove := Pen.move_of_isFinite cos sin c.step hheading
    have hq := hp.move hcircular h.step hheading hmove (by omega)
    obtain ⟨s, hs⟩ := c.exists_stroke hp.isFinite hmove hq.isFinite
    cases hs.symm.trans hstroke

end IsModest

/-! ## What is drawn -/

def Coordinate.PixelWithin (c : Coordinate) (b : ℕ) : Prop := ∃ n : ℤ, c = .pixel n ∧ |n| ≤ b

def Point.PixelsWithin (a : Point) (b : ℕ) : Prop := a.x.PixelWithin b ∧ a.y.PixelWithin b

namespace Course

variable {c : Course} {p q : Pen}

theorem point_of_snap {A : Arithmetic} (hsnap : c.snap = true) {a : Point}
    (h : c.point A p = .ok a) :
    ∃ m n, roundHalfUp A p.x = .ok m ∧ roundHalfUp A p.y = .ok n ∧ a = ⟨.pixel m, .pixel n⟩ := by
  unfold point Pen.pixel at h
  simp only [hsnap, if_true] at h
  split_ifs at h
  cases hm : roundHalfUp A p.x with
  | error e =>
    rw [hm] at h
    cases h
  | ok m =>
    cases hn : roundHalfUp A p.y with
    | error e =>
      rw [hm, hn] at h
      cases h
    | ok n =>
      rw [hm, hn] at h
      cases h
      exact ⟨m, n, rfl, rfl, rfl⟩

theorem pixelsWithin_of_point (hsnap : c.snap = true) {b : ℕ} (hp : p.PositionWithin b)
    (hb : b + 1 < 2 ^ 53) {a : Point} (h : c.point (.rounded cos sin) p = .ok a) :
    a.PixelsWithin (b + 1) := by
  have hlow : |(-b : ℤ)| < 2 ^ 53 := abs_lt.mpr ⟨by omega, by omega⟩
  have hhigh : |(b + 1 : ℤ)| < 2 ^ 53 := abs_lt.mpr ⟨by omega, by omega⟩
  obtain ⟨m, n, hm, hn, rfl⟩ := point_of_snap hsnap h
  obtain ⟨m', hm', hmlow, hmhigh⟩ := hp.1.roundHalfUp cos sin hlow hhigh
  obtain ⟨n', hn', hnlow, hnhigh⟩ := hp.2.roundHalfUp cos sin hlow hhigh
  obtain rfl := Except.ok.inj (hm.symm.trans hm')
  obtain rfl := Except.ok.inj (hn.symm.trans hn')
  exact ⟨⟨m, rfl, abs_le.mpr ⟨by omega, by omega⟩⟩, n, rfl, abs_le.mpr ⟨by omega, by omega⟩⟩

theorem isDot_of_stroke (hcircular : IsCircular cos sin) (hsnap : c.snap = true) {s : ℕ}
    (hstep : value? c.step = some (.ofRat s)) (hfive : 5 ≤ s) (hreach : s + 1 < 2 ^ 53)
    (hp : p.PositionWithin 0) (hheading : p.heading.isFinite = true) {drawn : Segment}
    (h : c.stroke (.rounded cos sin) p = .ok (q, drawn)) : drawn.isDot = false := by
  obtain ⟨hstart, hmove, hstop⟩ := stroke_eq_ok h
  have hfar := Pen.far_of_move hcircular hstep hheading hmove hp hfive (by omega)
  obtain ⟨m, n, hm, hn, hpoint⟩ := point_of_snap hsnap hstart
  obtain ⟨m', n', hm', hn', hpoint'⟩ := point_of_snap hsnap hstop
  -- Zero is rounded to zero or one, and what is three or farther from it to neither.
  have hnear {v : Float} {k : ℤ} (hv : IsBetween v 0 0)
      (hk : BracketTurtle.roundHalfUp (.rounded cos sin) v = .ok k) : 0 ≤ k ∧ k ≤ 1 := by
    obtain ⟨k', hk', hlow, hhigh⟩ := hv.roundHalfUp cos sin (by norm_num) (by norm_num)
    obtain rfl := Except.ok.inj (hk.symm.trans hk')
    exact ⟨hlow, hhigh⟩
  have haway {v : Float} {k : ℤ} (hv : IsBetween v (-s) (-3) ∨ IsBetween v 3 s)
      (hk : BracketTurtle.roundHalfUp (.rounded cos sin) v = .ok k) : k ≤ -2 ∨ 3 ≤ k := by
    rcases hv with hv | hv
    · obtain ⟨k', hk', _, hhigh⟩ :=
        hv.roundHalfUp cos sin (abs_lt.mpr ⟨by omega, by omega⟩) (by norm_num)
      obtain rfl := Except.ok.inj (hk.symm.trans hk')
      exact .inl hhigh
    · obtain ⟨k', hk', hlow, _⟩ :=
        hv.roundHalfUp cos sin (by norm_num) (abs_lt.mpr ⟨by omega, by omega⟩)
      obtain rfl := Except.ok.inj (hk.symm.trans hk')
      exact .inr hlow
  have hx := hnear hp.1 hm
  have hy := hnear hp.2 hn
  rw [Segment.isDot, hpoint, hpoint', Point.same, Bool.and_eq_false_iff]
  refine hfar.imp (fun hfar => ?_) fun hfar => ?_
  · have := haway hfar hm'
    exact decide_eq_false (by omega)
  · have := haway hfar hn'
    exact decide_eq_false (by omega)

end Course

namespace IsModest

variable {c : Course} {start p : Pen} {saved : List Pen} {w : Word} {d : List Segment} {s b : ℕ}
  (hcircular : IsCircular cos sin) (hsnap : c.snap = true)
include hcircular hsnap

/-- On the pixel grid all is drawn within the bound of the pens, and one pixel more. -/
theorem pixelsWithin (h : IsModest c start w s b)
    (hwalk : Walk (.rounded cos sin) c start [] w d p saved) {drawn : Segment}
    (hdrawn : drawn ∈ d) :
    drawn.start.PixelsWithin (b + w.countP Command.draws * s + 1) ∧
      drawn.stop.PixelsWithin (b + w.countP Command.draws * s + 1) := by
  obtain ⟨u, cmd, v, d₁, q, before, r, after, rfl, hfront, hact⟩ := hwalk.exists_act_of_mem hdrawn
  obtain ⟨hstart, _, hstop⟩ := Course.stroke_eq_ok (Course.stroke_of_act hact)
  have hwalk' : Walk (.rounded cos sin) c start [] (u ++ [cmd]) (d₁ ++ [drawn]) r after :=
    hfront.append (.single hact)
  have hprefix : u ++ [cmd] <+: u ++ cmd :: v := ⟨v, List.append_assoc ..⟩
  have hwithin {x : Word} (hx : x <+: u ++ cmd :: v) {t : Pen}
      (ht : t.PositionWithin (b + x.countP Command.draws * s)) :
      t.PositionWithin (b + (u ++ cmd :: v).countP Command.draws * s) := by
    have hle : x.countP Command.draws ≤ (u ++ cmd :: v).countP Command.draws :=
      hx.sublist.countP_le
    apply ht.mono
    gcongr
  have hq := (h.of_prefix (List.prefix_append u (cmd :: v))).positionWithin hcircular hfront q
    List.mem_cons_self
  have hr := (h.of_prefix hprefix).positionWithin hcircular hwalk' r List.mem_cons_self
  exact ⟨Course.pixelsWithin_of_point hsnap (hwithin (List.prefix_append u _) hq) h.reach hstart,
    Course.pixelsWithin_of_point hsnap (hwithin hprefix hr) h.reach hstop⟩

theorem exists_long (h : IsModest c start w s 0) (hfive : 5 ≤ s)
    (hdraws : w.any Command.draws = true)
    (hwalk : Walk (.rounded cos sin) c start [] w d p saved) :
    ∃ drawn ∈ d, drawn.isDot = false := by
  obtain ⟨cmd, hfind⟩ : ∃ cmd, w.find? Command.draws = some cmd := by
    rw [← Option.isSome_iff_exists, List.find?_isSome]
    simpa using hdraws
  obtain ⟨hcmd, u, v, rfl, hnone⟩ := List.find?_eq_some_iff_append.mp hfind
  have hu := h.of_prefix (List.prefix_append u (cmd :: v))
  have hcount : u.countP Command.draws = 0 := by
    rw [List.countP_eq_zero]
    simpa using hnone
  obtain ⟨d₁, q, kept, r, more, drawn, d₂, hfront, hact, rfl⟩ := hwalk.of_append_cons
  have hq := hu.positionWithin hcircular hfront q List.mem_cons_self
  rw [hcount, Nat.zero_mul, Nat.add_zero] at hq
  have hreach := h.reach
  have hone : 1 ≤ (u ++ cmd :: v).countP Command.draws := by
    rw [List.one_le_countP_iff]
    exact ⟨cmd, by simp, hcmd⟩
  have hs : s ≤ (u ++ cmd :: v).countP Command.draws * s := Nat.le_mul_of_pos_left s hone
  have hlong {t : Segment} (ht : c.stroke (.rounded cos sin) q = .ok (r, t)) : t.isDot = false :=
    Course.isDot_of_stroke hcircular hsnap h.step hfive (by omega) hq
      (hu.isFinite_heading hfront) ht
  cases Course.acts_of_act hact with
  | forward ht | forward2 ht => exact ⟨_, by simp, hlong ht⟩
  | _ => cases hcmd

end IsModest
end BracketTurtle
