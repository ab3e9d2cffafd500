import BracketTurtle.Proofs.PartialRuns
import BracketTurtle.Proofs.RoundedArithmetic

/-!
# Faults of a run

With rounded arithmetic a run has three ways to fault: no saved pen, a position that is not finite,
and a heading that has become infinite. Rounding to pixels never faults, since only finite positions
are rounded and a half added to one stays finite. The third way is open only to a drawing command
that finds its pen at a finite position with an infinite heading, and turns that are small next to
the greatest double never lead there.
-/

namespace BracketTurtle

/-- The causes a run has errors of its own for. Any other is an error of the pen that carries out
the command. -/
def Cause.IsOwn : Cause → Prop
  | .noSavedPen | .notFinite _ _ => True
  | .pen _ => False

/-! ## Infinite angles -/

namespace Number

open Float.Model (UnpackedFloat)

theorem exists_value?_degree : ∃ d, value? degree = some (.ofRat d) ∧ 0 < d ∧ d ≤ 1 / 2 := by
  have hexact : exact degree = .finite false ⟨5030569068109113, -58⟩ := by rfl
  refine ⟨5030569068109113 * 2 ^ (-58 : ℤ), ?_, by norm_num, by norm_num⟩
  rw [value?, hexact]
  rfl

theorem isFinite_mul_degree {x : Float} (h : x.isFinite = true) : (x * degree).isFinite = true := by
  obtain ⟨q, hq⟩ := isFinite_iff.mp h
  obtain ⟨d, hd, hpos, hsmall⟩ := exists_value?_degree
  apply isFinite_of_rounded (value?_mul hq hd)
  have hlimit := abs_add_le_limit hq
  have hprod : |q * d| ≤ |q| * (1 / 2) := by
    rw [abs_mul, abs_of_pos hpos]
    exact mul_le_mul_of_nonneg_left hsmall (abs_nonneg q)
  have hlast := halfPlace_pos
  have hnonneg := abs_nonneg q
  linarith

theorem not_isInf_of_isFinite {x : Float} (h : x.isFinite = true) : ¬x.isInf = true := by
  obtain ⟨q, hq⟩ := isFinite_iff.mp h
  rw [isInf_iff]
  rintro ⟨s, hs⟩
  rw [value?_infinity hs] at hq
  cases s <;> cases hq

theorem isInf_mul_degree {x : Float} : (x * degree).isInf = true ↔ x.isInf = true := by
  by_cases hfinite : x.isFinite = true
  · exact iff_of_false (not_isInf_of_isFinite (isFinite_mul_degree hfinite))
      (not_isInf_of_isFinite hfinite)
  · obtain ⟨d, hd, hpos, _⟩ := exists_value?_degree
    rcases unpack_of_value? hd with ⟨_, _, hzero⟩ | ⟨t, n, f, hn, ht, _, _⟩
    · exact absurd hzero hpos.ne'
    · rw [isInf_iff, isInf_iff, toModel_mul, unpack_toModel_pack, ht]
      cases hx : x.toModel.unpack with
      | notANumber =>
        apply iff_of_false
        · rintro ⟨s, h⟩
          cases unpack_packedNaN.symm.trans h
        · rintro ⟨s, h⟩
          cases h
      | infinity s => exact iff_of_true ⟨_, unpack_packedInfinity _⟩ ⟨s, rfl⟩
      | zero s => exact absurd (isFinite_iff.mpr ⟨_, value?_zero hx⟩) hfinite
      | finite s m e hm => exact absurd (isFinite_iff.mpr ⟨_, value?_finite hx⟩) hfinite

end Number

variable {cos sin : Float → Float} {c : Course}

/-! ## Rounding to pixels -/

theorem roundHalfUp_of_isFinite (cos sin : Float → Float) {v : Float} (h : v.isFinite = true) :
    ∃ n, roundHalfUp (.rounded cos sin) v = .ok n := by
  obtain ⟨q, hq⟩ := Number.isFinite_iff.mp (Number.isFinite_add_half h)
  obtain ⟨negative, a, ha, _⟩ := Number.Exact.value?_eq_ofRat.mp hq
  have hsum : (Arithmetic.rounded cos sin).add v 0.5 = v + 0.5 := rfl
  exact ⟨_, by rw [roundHalfUp, hsum, ha]⟩

theorem Pen.pixel_of_isFinite (cos sin : Float → Float) {p : Pen} (h : p.isFinite = true) :
    ∃ a, p.pixel (.rounded cos sin) = .ok a := by
  obtain ⟨hx, hy⟩ := Bool.and_eq_true_iff.mp h
  obtain ⟨m, hm⟩ := roundHalfUp_of_isFinite cos sin hx
  obtain ⟨n, hn⟩ := roundHalfUp_of_isFinite cos sin hy
  exact ⟨(m, n), by rw [pixel, hm, hn]; rfl⟩

theorem Course.point_cases (cos sin : Float → Float) (c : Course) (p : Pen) :
    (p.isFinite = true ∧ ∃ a, c.point (.rounded cos sin) p = .ok a) ∨
      (p.isFinite = false ∧ c.point (.rounded cos sin) p = .error (.notFinite p.x p.y)) := by
  cases h : p.isFinite with
  | true =>
    obtain ⟨a, ha⟩ := Pen.pixel_of_isFinite cos sin h
    left
    rw [point, h, ha]
    cases c.snap with
    | true => exact ⟨rfl, _, rfl⟩
    | false => exact ⟨rfl, _, rfl⟩
  | false =>
    right
    rw [point, h]
    exact ⟨rfl, rfl⟩

/-! ## Faults of a command -/

theorem Pen.move_of_isInf (distance : Float) {p : Pen} (h : p.heading.isInf = true) :
    p.move (.rounded cos sin) distance = .error .infiniteHeading :=
  if_pos (Number.isInf_mul_degree.mpr h)

theorem Pen.move_of_not_isInf (cos sin : Float → Float) (distance : Float) {p : Pen}
    (h : ¬p.heading.isInf = true) : ∃ q, p.move (.rounded cos sin) distance = .ok q :=
  ⟨_, if_neg (mt Number.isInf_mul_degree.mp h)⟩

/-- What keeps a pen from drawing is the position before or after its move, or its heading. -/
theorem Course.stroke_eq_error {p : Pen} {e : Cause}
    (h : c.stroke (.rounded cos sin) p = .error e) :
    e.IsOwn ∨ e = .pen .infiniteHeading ∧ p.isFinite = true ∧ p.heading.isInf = true := by
  rcases c.point_cases cos sin p with ⟨hp, a, ha⟩ | ⟨_, ha⟩
  · by_cases hinf : p.heading.isInf = true
    · rw [stroke, ha, Pen.move_of_isInf c.step hinf] at h
      cases h
      exact .inr ⟨rfl, hp, hinf⟩
    · obtain ⟨q, hq⟩ := Pen.move_of_not_isInf cos sin c.step hinf
      rcases c.point_cases cos sin q with ⟨_, b, hb⟩ | ⟨_, hb⟩
      · rw [stroke, ha, hq] at h
        simp only [hb] at h
        cases h
      · rw [stroke, ha, hq] at h
        simp only [hb] at h
        cases h
        exact .inl trivial
  · rw [stroke, ha] at h
    cases h
    exact .inl trivial

theorem Course.stroke_of_isInf {p : Pen} (hp : p.isFinite = true) (h : p.heading.isInf = true) :
    c.stroke (.rounded cos sin) p = .error (.pen .infiniteHeading) := by
  rcases c.point_cases cos sin p with ⟨_, a, ha⟩ | ⟨hfalse, _⟩
  · rw [stroke, ha, Pen.move_of_isInf c.step h]
  · rw [hp] at hfalse
    cases hfalse

/-- Only a `pop` without a saved pen and a stroke can fault. -/
theorem Course.act_eq_error_iff {A : Arithmetic} {cmd : Command} {p : Pen} {saved : List Pen}
    {e : Cause} :
    c.act A cmd p saved = .error e ↔
      (cmd = .pop ∧ saved = [] ∧ e = .noSavedPen) ∨
        (cmd.draws = true ∧ c.stroke A p = .error e) := by
  cases cmd with
  | forward | forward2 =>
    cases hs : c.stroke A p <;> simp [act, hs, Command.draws]
  | pop =>
    cases saved <;> simp [act, Command.draws, eq_comm]
  | _ => simp [act, Command.draws]

/-! ## Faults of a run -/

/-- The command at index `k` draws, and the commands before it lead to a finite position and an
infinite heading. -/
def MeetsInfiniteHeading (A : Arithmetic) (c : Course) (start : Pen) (w : Word) (k : ℕ) : Prop :=
  ∃ d p saved cmd, Walk A c start [] (w.take k) d p saved ∧ w[k]? = some cmd ∧ cmd.draws = true ∧
    p.isFinite = true ∧ p.heading.isInf = true

theorem MeetsInfiniteHeading.firstFault {start : Pen} {w : Word} {k : ℕ}
    (h : MeetsInfiniteHeading (.rounded cos sin) c start w k) :
    FirstFault (.rounded cos sin) c start w k (.pen .infiniteHeading) := by
  obtain ⟨d, p, saved, cmd, hwalk, hcmd, hdraws, hp, hinf⟩ := h
  exact ⟨d, p, saved, cmd, hwalk, hcmd,
    Course.act_eq_error_iff.mpr (.inr ⟨hdraws, Course.stroke_of_isInf hp hinf⟩)⟩

theorem FirstFault.isOwn_or {start : Pen} {w : Word} {k : ℕ} {e : Cause}
    (h : FirstFault (.rounded cos sin) c start w k e) :
    e.IsOwn ∨ e = .pen .infiniteHeading ∧
      MeetsInfiniteHeading (.rounded cos sin) c start w k := by
  obtain ⟨d, p, saved, cmd, hwalk, hcmd, he⟩ := h
  rcases Course.act_eq_error_iff.mp he with ⟨_, _, rfl⟩ | ⟨hdraws, hstroke⟩
  · exact .inl trivial
  · refine (Course.stroke_eq_error hstroke).imp id ?_
    rintro ⟨rfl, hp, hinf⟩
    exact ⟨rfl, d, p, saved, cmd, hwalk, hcmd, hdraws, hp, hinf⟩

/-- Whatever the cosines and sines are, a run ends normally or with an error of its own exactly if
no drawing command meets a finite position with an infinite heading, and the only other end of a run
is that such a heading has neither cosine nor sine. -/
theorem fault_isOwn_iff (cos sin : Float → Float) (c : Course) (w : Word) (start : Pen) :
    let A := Arithmetic.rounded cos sin
    let r := c.run A w start
    ((∀ f, r.fault = some f → f.cause.IsOwn) ↔ ∀ k, ¬MeetsInfiniteHeading A c start w k) ∧
      ∀ k e, FirstFault A c start w k e →
        e.IsOwn ∨ e = .pen .infiniteHeading ∧ MeetsInfiniteHeading A c start w k := by
  intro A r
  refine ⟨⟨?_, ?_⟩, ?_⟩
  · intro hown k hmeets
    obtain ⟨_, hrun⟩ := run_of_firstFault hmeets.firstFault
    have hfault : r.fault = some ⟨.pen .infiniteHeading, k, (c.run A (w.take k) start).drawn⟩ :=
      congrArg Run.fault hrun
    exact hown _ hfault
  · intro hnone f hf
    rcases (firstFault_of_run hf).isOwn_or with hown | ⟨_, hmeets⟩
    · exact hown
    · exact absurd hmeets (hnone _)
  · intro k e he
    exact he.isOwn_or

/-- Two turns of a finite angle are enough for an infinite heading. -/
theorem finite_turns_fault :
    ¬∀ (c : Course) (w : Word) (start : Pen), c.step.isFinite = true → c.turn.isFinite = true →
      start.isFinite = true → start.heading.isFinite = true →
        ∀ f, (c.run .machine w start).fault = some f → f.cause.IsOwn := by
  intro hown
  let c : Course := ⟨8, 1e308, true⟩
  let w : Word := [.right, .right, .forward]
  have hturn : c.turn.isFinite = true := by decide +kernel
  have hheading :
      ((Pen.origin.rotate .machine c.turn).rotate .machine c.turn).heading.isInf = true := by
    decide +kernel
  have hwalk : Walk .machine c .origin [] [.right, .right] []
      ((Pen.origin.rotate .machine c.turn).rotate .machine c.turn) [] :=
    .cons (s := none) rfl (.cons (s := none) rfl .nil)
  have hmeets : MeetsInfiniteHeading .machine c .origin w 2 :=
    ⟨[], _, [], .forward, hwalk, rfl, rfl, by decide +kernel, hheading⟩
  have hfault := congrArg Run.fault (run_of_firstFault hmeets.firstFault).2
  have hstart : Pen.origin.isFinite = true ∧ Pen.origin.heading.isFinite = true := by decide +kernel
  exact hown c w .origin (by decide +kernel) hturn hstart.1 hstart.2 _ hfault

/-! ## Small turns -/

def Command.turns : Command → Bool
  | .right | .left => true
  | _ => false

/-- The heading is a fraction, no farther from zero than the bound. -/
def Pen.HeadingWithin (p : Pen) (b : ℚ) : Prop :=
  ∃ q, Number.value? p.heading = some (.ofRat q) ∧ |q| ≤ b

namespace Pen.HeadingWithin

theorem mono {p : Pen} {b b' : ℚ} (h : p.HeadingWithin b) (hb : b ≤ b') : p.HeadingWithin b' := by
  obtain ⟨q, hq, hle⟩ := h
  exact ⟨q, hq, hle.trans hb⟩

/-- A turn widens the bound by its angle and by what rounding can add. -/
theorem rotate {p : Pen} {b t : ℚ} {degrees : Float} (h : p.HeadingWithin b)
    (ht : Number.value? degrees = some (.ofRat t))
    (hb : b + (|t| + Number.halfPlace) < Number.limit) :
    (p.rotate (.rounded cos sin) degrees).HeadingWithin (b + (|t| + Number.halfPlace)) := by
  obtain ⟨q, hq, hle⟩ := h
  have hsum : |q + t| ≤ b + |t| := (abs_add_le q t).trans (by gcongr)
  have hlt : |q + t| + Number.halfPlace < Number.limit := by
      linarith
  obtain ⟨r, hr, hnear⟩ := Number.exists_rounded hlt
  refine ⟨r, (Number.value?_add hq ht).trans (congrArg some hr), ?_⟩
  linarith

theorem not_isInf {p : Pen} {b : ℚ} (h : p.HeadingWithin b) : ¬p.heading.isInf = true := by
  obtain ⟨q, hq, _⟩ := h
  exact Number.not_isInf_of_isFinite (Number.isFinite_iff.mpr ⟨q, hq⟩)

end Pen.HeadingWithin

theorem Course.headingWithin_of_act {t b : ℚ} (ht : Number.value? c.turn = some (.ofRat t))
    {cmd : Command} {p q : Pen} {saved kept : List Pen} {s : Option Segment}
    (h : c.act (.rounded cos sin) cmd p saved = .ok (q, kept, s))
    (hb : b + (if cmd.turns then 1 else 0) * (|t| + Number.halfPlace) < Number.limit)
    (hbefore : ∀ r ∈ p :: saved, r.HeadingWithin b) :
    ∀ r ∈ q :: kept,
      r.HeadingWithin (b + (if cmd.turns then 1 else 0) * (|t| + Number.halfPlace)) := by
  have hwiden : b ≤ b + (|t| + Number.halfPlace) := by
    have hpos := Number.halfPlace_pos
    have hnonneg := abs_nonneg t
    linarith
  have hsaved {r : Pen} (hr : r ∈ saved) := hbefore r (List.mem_cons_of_mem _ hr)
  have hp := hbefore p List.mem_cons_self
  cases acts_of_act h with
  | forward hs | forward2 hs =>
    simp only [Command.turns, Bool.false_eq_true, if_false, zero_mul, add_zero,
      List.forall_mem_cons]
    have hmove := Pen.move_heading (stroke_eq_ok hs).2.1
    refine ⟨?_, fun r hr => hsaved hr⟩
    rwa [Pen.HeadingWithin, hmove]
  | ignore =>
    simpa [Command.turns] using hbefore
  | push =>
    simp only [Command.turns, Bool.false_eq_true, if_false, zero_mul, add_zero,
      List.forall_mem_cons]
    exact ⟨hp, hp, fun r hr => hsaved hr⟩
  | pop =>
    simp only [Command.turns, Bool.false_eq_true, if_false, zero_mul, add_zero]
    exact fun r hr => hsaved hr
  | right =>
    simp only [Command.turns, if_true, one_mul, List.forall_mem_cons] at hb ⊢
    exact ⟨hp.rotate ht hb, fun r hr => (hsaved hr).mono hwiden⟩
  | left =>
    simp only [Command.turns, if_true, one_mul, List.forall_mem_cons] at hb ⊢
    rw [← abs_neg t] at hb hwiden ⊢
    exact ⟨hp.rotate (Number.value?_neg ht) hb, fun r hr => (hsaved hr).mono hwiden⟩

/-- Along a walk the headings of the pen and of the saved pens stay within the bound, widened once
for every turn. -/
theorem Walk.headingWithin {t : ℚ} (ht : Number.value? c.turn = some (.ofRat t)) {p q : Pen}
    {saved kept : List Pen} {w : Word} {d : List Segment}
    (h : Walk (.rounded cos sin) c p saved w d q kept) {b : ℚ}
    (hb : b + w.countP Command.turns * (|t| + Number.halfPlace) < Number.limit)
    (hstart : ∀ r ∈ p :: saved, r.HeadingWithin b) :
    ∀ r ∈ q :: kept, r.HeadingWithin (b + w.countP Command.turns * (|t| + Number.halfPlace)) := by
  induction h generalizing b with
  | nil => simpa using hstart
  | @cons cmd w p q r saved kept left s d hact _ ih =>
    have hsplit : b + (cmd :: w).countP Command.turns * (|t| + Number.halfPlace) =
        b + (if cmd.turns then 1 else 0) * (|t| + Number.halfPlace) +
          w.countP Command.turns * (|t| + Number.halfPlace) := by
      rw [List.countP_cons]
      push_cast
      ring
    rw [hsplit] at hb ⊢
    have hrest : 0 ≤ w.countP Command.turns * (|t| + Number.halfPlace) := by
      have hpos := Number.halfPlace_pos
      positivity
    exact ih hb (Course.headingWithin_of_act ht hact ((le_add_of_nonneg_right hrest).trans_lt hb)
      hstart)

/-- As long as the heading cannot reach the limit by all the turns of the word, a run ends normally
or with an error of its own. -/
theorem fault_isOwn_of_small_turns (cos sin : Float → Float) (c : Course) (w : Word) (start : Pen)
    {q t : ℚ} (hq : Number.value? start.heading = some (.ofRat q))
    (ht : Number.value? c.turn = some (.ofRat t))
    (hb : |q| + w.countP Command.turns * (|t| + Number.halfPlace) < Number.limit) :
    ∀ f, (c.run (.rounded cos sin) w start).fault = some f → f.cause.IsOwn := by
  intro f hf
  rcases (firstFault_of_run hf).isOwn_or with hown | ⟨_, d, p, saved, cmd, hwalk, _, _, _, hinf⟩
  · exact hown
  · have hle : ((w.take f.position).countP Command.turns : ℚ) ≤ w.countP Command.turns := by
      exact_mod_cast (List.take_sublist _ _).countP_le
    have hwidth : 0 ≤ |t| + Number.halfPlace := add_nonneg (abs_nonneg t) Number.halfPlace_pos.le
    have hbound : |q| + (w.take f.position).countP Command.turns * (|t| + Number.halfPlace) <
        Number.limit := by
      calc |q| + (w.take f.position).countP Command.turns * (|t| + Number.halfPlace)
          ≤ |q| + w.countP Command.turns * (|t| + Number.halfPlace) := by gcongr
        _ < Number.limit := hb
    have hstart : ∀ r ∈ [start], r.HeadingWithin |q| := by
      rw [List.forall_mem_singleton]
      exact ⟨q, hq, le_rfl⟩
    exact absurd hinf (hwalk.headingWithin ht hbound hstart p List.mem_cons_self).not_isInf

end BracketTurtle
