import BracketTurtle.Proofs.Walks
import Mathlib.Data.List.Infix

/-!
# Branches leave no trace

A word is covered by a number of saved pens when each of its pops finds one of them or a pen that
the word pushed itself. Such a word never reaches the pens below, so it does the same over any
deeper stack; a balanced word, moreover, leaves the stack as it found it. Hence a balanced branch
in brackets draws its own segments and changes nothing for what comes after it, neither where the
turtle draws nor where it faults.
-/

namespace BracketTurtle

namespace Word

/-- Every prefix pops at most `depth` pens more than it pushes. -/
def Covered (depth : ℕ) (w : Word) : Prop :=
  ∀ u, u <+: w → u.count .pop ≤ depth + u.count .push

instance (depth : ℕ) (w : Word) : Decidable (Covered depth w) :=
  decidable_of_iff (∀ u ∈ w.inits, u.count .pop ≤ depth + u.count .push) (by simp [Covered])

/-- No prefix pops more than it pushes, and the whole word pops as much as it pushes. -/
structure Balanced (w : Word) : Prop where
  covered : Covered 0 w
  even : w.count .pop = w.count .push

instance (w : Word) : Decidable (Balanced w) :=
  decidable_of_iff (Covered 0 w ∧ w.count .pop = w.count .push)
    ⟨fun h => ⟨h.1, h.2⟩, fun h => ⟨h.1, h.2⟩⟩

theorem Covered.pos_of_pop {depth : ℕ} {w : Word} (h : Covered depth (.pop :: w)) : 0 < depth := by
  have hp := h [.pop] ⟨w, rfl⟩
  simp only [List.count_singleton_self] at hp
  exact hp

theorem Covered.tail {depth next : ℕ} {cmd : Command} {w : Word} (h : Covered depth (cmd :: w))
    (hn : next + [cmd].count .pop = depth + [cmd].count .push) : Covered next w := by
  intro u hu
  have hc := h (cmd :: u) (List.cons_prefix_cons.mpr ⟨rfl, hu⟩)
  rw [← List.singleton_append, List.count_append, List.count_append] at hc
  omega

end Word

variable {A : Arithmetic} {c : Course}

namespace Course

theorem depth_of_act {cmd : Command} {p q : Pen} {saved kept : List Pen} {s : Option Segment}
    (h : c.act A cmd p saved = .ok (q, kept, s)) :
    kept.length + [cmd].count .pop = saved.length + [cmd].count .push := by
  cases acts_of_act h with
  | _ => rfl

theorem act_append {cmd : Command} {saved : List Pen} (h : cmd = .pop → saved ≠ []) (p : Pen)
    (base : List Pen) :
    c.act A cmd p (saved ++ base) =
      (c.act A cmd p saved).map fun r => (r.1, r.2.1 ++ base, r.2.2) := by
  cases cmd with
  | forward | forward2 =>
    simp only [act]
    cases c.stroke A p <;> rfl
  | pop =>
    cases saved with
    | nil => exact absurd rfl (h rfl)
    | cons => rfl
  | _ => rfl

end Course

namespace Walk

variable {p q : Pen} {saved kept base : List Pen} {w : Word} {d : List Segment}

theorem depth (h : Walk A c p saved w d q kept) :
    kept.length + w.count .pop = saved.length + w.count .push := by
  induction h with
  | nil => rfl
  | @cons cmd w p q r saved kept left s d hact _ ih =>
    have hd := Course.depth_of_act hact
    rw [← List.singleton_append, List.count_append, List.count_append]
    omega

/-- A walk over a deeper stack is a walk over its covered top: the pens below stay in place. -/
theorem of_append_saved (hw : Word.Covered saved.length w)
    (h : Walk A c p (saved ++ base) w d q kept) :
    ∃ top, kept = top ++ base ∧ Walk A c p saved w d q top := by
  induction w generalizing p saved d with
  | nil =>
    cases h
    exact ⟨saved, rfl, .nil⟩
  | cons cmd w ih =>
    have hcmd : cmd = .pop → saved ≠ [] := by
      rintro rfl rfl
      exact absurd hw.pos_of_pop (lt_irrefl 0)
    cases h with
    | cons hact hrest =>
      rw [Course.act_append hcmd] at hact
      rcases hs : c.act A cmd p saved with e | ⟨r, next, s⟩
      · rw [hs] at hact
        cases hact
      · rw [hs] at hact
        cases hact
        obtain ⟨top, htop, hwalk⟩ := ih (hw.tail (Course.depth_of_act hs)) hrest
        exact ⟨top, htop, .cons hs hwalk⟩

theorem append_saved (h : Walk A c p saved w d q kept) (base : List Pen) :
    Walk A c p (saved ++ base) w d q (kept ++ base) := by
  induction h with
  | nil => exact .nil
  | @cons cmd w p q r saved kept left s d hact _ ih =>
    have hcmd : cmd = .pop → saved ≠ [] := by
      rintro rfl rfl
      cases hact
    refine .cons ?_ ih
    rw [Course.act_append hcmd, hact]
    rfl

theorem eq_nil_of_balanced (hw : w.Balanced) (h : Walk A c p [] w d q kept) : kept = [] := by
  have hd := h.depth
  have he := hw.even
  rw [List.length_nil] at hd
  exact List.length_eq_zero_iff.mp (by omega)

/-- A branch in brackets comes back to the pen and the stack at its opening. -/
theorem branch (hw : w.Balanced) (h : Walk A c p [] w d q kept) (saved : List Pen) :
    Walk A c p saved (.push :: (w ++ [.pop])) d p saved := by
  have hin := h.append_saved (p :: saved)
  rw [h.eq_nil_of_balanced hw, List.nil_append] at hin
  have hpop : c.act A .pop q (p :: saved) = .ok (p, saved, none) := rfl
  have hbody := hin.append (single hpop)
  rw [Option.toList_none, List.append_nil] at hbody
  have hpush : c.act A .push p saved = .ok (p, p :: saved, none) := rfl
  exact .cons hpush hbody

theorem of_branch (hw : w.Balanced) {saved : List Pen} {v : Word} {r : Pen} {left : List Pen}
    (h : Walk A c p saved (.push :: (w ++ .pop :: v)) d r left) :
    ∃ d₁ d₂ q, Walk A c p [] w d₁ q [] ∧ Walk A c p saved v d₂ r left ∧ d = d₁ ++ d₂ := by
  cases h with
  | cons hpush hrest =>
    cases hpush
    obtain ⟨q, kept, d₁, d₂, hin, hout, rfl⟩ := hrest.of_append
    have hcovered : Word.Covered ([] : List Pen).length w := hw.covered
    obtain ⟨top, rfl, hbranch⟩ := of_append_saved hcovered hin
    obtain rfl := hbranch.eq_nil_of_balanced hw
    cases hout with
    | cons hpop hv =>
      cases hpop
      exact ⟨d₁, _, q, hbranch, hv, rfl⟩

end Walk

/-- The pen that a run has when it ends. -/
def Course.penAfter (A : Arithmetic) (c : Course) (w : Word) (start : Pen) : Pen :=
  (c.follow A (fun _ _ => ()) (.start () start) w).1.pen

theorem penAfter_of_walk {w : Word} {p q : Pen} {d : List Segment} {kept : List Pen}
    (h : Walk A c p [] w d q kept) : c.penAfter A w p = q := by
  rw [Course.penAfter, Turtle.start, follow_of_walk _ h]

/-- A balanced branch is invisible to the rest of a word. A run through `u[w]v` that reaches its end
draws what `u` draws, then what `w` draws from there alone, then what `v` draws in `uv`; and a fault
of `uv` inside `v` comes back in `u[w]v`, later by the commands and the segments of the branch,
unless the branch cannot be drawn. -/
theorem branch_isolated (A : Arithmetic) (c : Course) (start : Pen) (u w v : Word)
    (hw : w.Balanced) :
    let through := c.run A (u ++ .push :: (w ++ .pop :: v)) start
    let past := c.run A (u ++ v) start
    let inner := c.run A w (c.penAfter A u start)
    (through.fault = none →
      past.fault = none ∧
        ∃ rest,
          through.segments = (c.run A u start).segments ++ inner.segments ++ rest ∧
            past.segments = (c.run A u start).segments ++ rest) ∧
    (inner.fault = none → ∀ f, past.fault = some f → u.length ≤ f.position →
      through.fault =
        some ⟨f.cause, f.position + w.length + 2, f.drawn + w.countP Command.draws⟩) := by
  intro through past inner
  constructor
  · intro hfault
    obtain ⟨d, r, left, hwalk⟩ := walk_of_run hfault
    obtain ⟨p, saved, d₁, d₂, hu, hbranch, rfl⟩ := hwalk.of_append
    obtain ⟨e₁, e₂, q, hin, hv, rfl⟩ := Walk.of_branch hw hbranch
    have hpen : c.penAfter A u start = p := penAfter_of_walk hu
    have hinner : inner.segments = e₁ := segments_of_walk (hpen ▸ hin)
    have hpast : past = ⟨(d₁ ++ e₂).reverse, _, _, none⟩ := run_of_walk (hu.append hv)
    refine ⟨by rw [hpast], e₂, ?_, ?_⟩
    · rw [segments_of_walk hu, hinner, List.append_assoc]
      exact segments_of_walk hwalk
    · rw [segments_of_walk hu]
      exact segments_of_walk (hu.append hv)
  · intro hfault f hf hpos
    obtain ⟨x, cmd, v', d, q, kept, hword, hwalk, he, hposition, hdrawn⟩ := walk_of_fault hf
    -- The walk up to the fault goes through the whole of `u`.
    obtain ⟨y, rfl, rfl⟩ : ∃ y, x = u ++ y ∧ v = y ++ cmd :: v' := by
      rcases List.append_eq_append_iff.mp hword with ⟨y, hx, hv⟩ | ⟨y, hu, hv⟩
      · exact ⟨y, hx, hv⟩
      · have hy : y = [] := by
          rw [hu, List.length_append, hposition] at hpos
          exact List.length_eq_zero_iff.mp (by omega)
        subst hy
        exact ⟨[], by simpa using hu.symm, by simpa using hv.symm⟩
    obtain ⟨p, saved, d₁, d₂, hu, hy, rfl⟩ := hwalk.of_append
    have hpen : c.penAfter A u start = p := penAfter_of_walk hu
    obtain ⟨e, r, top, hin⟩ := walk_of_run hfault
    rw [hpen] at hin
    have hbranch := hin.eq_nil_of_balanced hw ▸ hin
    have hthrough := (hu.append (hbranch.branch hw saved)).append hy
    have hsplit : u ++ .push :: (w ++ .pop :: (y ++ cmd :: v')) =
        u ++ .push :: (w ++ [.pop]) ++ y ++ cmd :: v' := by simp
    change (c.run A _ start).fault = _
    rw [hsplit, run_of_fault hthrough he, hposition, hdrawn, ← hin.length_drawn]
    simp only [List.length_append, List.length_cons, List.length_nil, Option.some.injEq,
      Fault.mk.injEq, true_and]
    omega

theorem branch_isolated_nested :
    let run (w : Word) (p : Pen) := straight.2.run straight.1 w p
    let u : Word := [.forward]
    let w : Word := [.forward, .push, .forward2, .pop, .ignore]
    let v : Word := [.forward, .pop]
    let inside := straight.2.penAfter straight.1 u .origin
    w.Balanced ∧
      (∃ rest,
        (run (u ++ .push :: (w ++ .pop :: u)) .origin).segments =
            (run u .origin).segments ++ (run w inside).segments ++ rest ∧
          (run (u ++ u) .origin).segments = (run u .origin).segments ++ rest) ∧
      (run (u ++ .push :: (w ++ .pop :: v)) .origin).fault = some ⟨.noSavedPen, 9, 4⟩ := by
  intro run u w v inside
  have hw : w.Balanced := by decide
  have hnormal := branch_isolated straight.1 straight.2 .origin u w u hw
  have hfault := branch_isolated straight.1 straight.2 .origin u w v hw
  have hend : (run (u ++ .push :: (w ++ .pop :: u)) .origin).fault = none :=
    Option.isNone_iff_eq_none.mp (by decide +kernel)
  have hinner : (run w inside).fault = none := Option.isNone_iff_eq_none.mp (by decide +kernel)
  have hpast : (run (u ++ v) .origin).fault = some ⟨.noSavedPen, 2, 2⟩ := by rfl
  refine ⟨hw, (hnormal.1 hend).2, ?_⟩
  exact hfault.2 hinner _ hpast (by decide)

end BracketTurtle
