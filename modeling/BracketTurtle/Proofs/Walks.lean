import BracketTurtle.Turtle
import Mathlib.Tactic

/-!
# Walks

A walk is a stretch of a word that a turtle carries out without a fault: a relation between the
pen and the saved pens before it, the segments drawn on the way, and the pen and the saved pens
after it. It mentions neither a canvas nor a counter. A run follows the longest walk from its
start, and ends with it or with a fault of the next command; all that a run leaves is read off
that walk.
-/

namespace BracketTurtle

/-- `Walk A c p saved w drawn q kept`: from the pen `p` over the pens `saved`, the commands of `w`
lead to `q` over `kept` and draw `drawn`. -/
inductive Walk (A : Arithmetic) (c : Course) :
    Pen → List Pen → Word → List Segment → Pen → List Pen → Prop
  | nil {p : Pen} {saved : List Pen} : Walk A c p saved [] [] p saved
  | cons {cmd : Command} {w : Word} {p q r : Pen} {saved kept left : List Pen}
      {s : Option Segment} {drawn : List Segment} :
      c.act A cmd p saved = .ok (q, kept, s) → Walk A c q kept w drawn r left →
        Walk A c p saved (cmd :: w) (s.toList ++ drawn) r left

/-- What each command does to a pen and the saved pens when it can be carried out. -/
inductive Acts (A : Arithmetic) (c : Course) :
    Command → Pen → List Pen → Pen → List Pen → Option Segment → Prop
  | forward {p q : Pen} {saved : List Pen} {s : Segment} :
      c.stroke A p = .ok (q, s) → Acts A c .forward p saved q saved (some s)
  | forward2 {p q : Pen} {saved : List Pen} {s : Segment} :
      c.stroke A p = .ok (q, s) → Acts A c .forward2 p saved q saved (some s)
  | ignore {p : Pen} {saved : List Pen} : Acts A c .ignore p saved p saved none
  | right {p : Pen} {saved : List Pen} :
      Acts A c .right p saved (p.rotate A c.turn) saved none
  | left {p : Pen} {saved : List Pen} :
      Acts A c .left p saved (p.rotate A (-c.turn)) saved none
  | push {p : Pen} {saved : List Pen} : Acts A c .push p saved p (p :: saved) none
  | pop {p q : Pen} {saved : List Pen} : Acts A c .pop p (q :: saved) q saved none

section

variable {A : Arithmetic} {c : Course} {p q r : Pen} {saved kept left : List Pen}

/-- What a command has done that could be carried out. -/
theorem Course.acts_of_act {cmd : Command} {s : Option Segment}
    (h : c.act A cmd p saved = .ok (q, kept, s)) : Acts A c cmd p saved q kept s := by
  cases cmd with
  | forward | forward2 =>
    simp only [act] at h
    split at h
    · cases h
    · rename_i hs
      cases h
      constructor
      exact hs
  | pop =>
    cases saved with
    | nil => cases h
    | cons =>
      cases h
      constructor
  | _ =>
    cases h
    constructor

theorem Course.length_of_act {cmd : Command} {s : Option Segment}
    (h : c.act A cmd p saved = .ok (q, kept, s)) :
    s.toList.length = if cmd.draws then 1 else 0 := by
  cases acts_of_act h with
  | _ => rfl

theorem Course.stroke_eq_ok {s : Segment} (h : c.stroke A p = .ok (q, s)) :
    c.point A p = .ok s.start ∧ p.move A c.step = .ok q ∧ c.point A q = .ok s.stop := by
  simp only [stroke] at h
  split at h
  · cases h
  · rename_i a ha
    split at h
    · cases h
    · rename_i r hr
      split at h
      · cases h
      · rename_i b hb
        cases h
        exact ⟨ha, hr, hb⟩

theorem Course.stroke_of_act {cmd : Command} {s : Segment}
    (h : c.act A cmd p saved = .ok (q, kept, some s)) : c.stroke A p = .ok (q, s) := by
  cases acts_of_act h with
  | forward hs | forward2 hs => exact hs

namespace Walk

theorem single {cmd : Command} {s : Option Segment} (h : c.act A cmd p saved = .ok (q, kept, s)) :
    Walk A c p saved [cmd] s.toList q kept := by
  simpa using Walk.cons h .nil

theorem append {u v : Word} {d e : List Segment} (hu : Walk A c p saved u d q kept)
    (hv : Walk A c q kept v e r left) : Walk A c p saved (u ++ v) (d ++ e) r left := by
  induction hu with
  | nil => exact hv
  | cons hact _ ih =>
    rw [List.cons_append, List.append_assoc]
    exact .cons hact (ih hv)

theorem of_append {u v : Word} {d : List Segment} (h : Walk A c p saved (u ++ v) d r left) :
    ∃ q kept d₁ d₂, Walk A c p saved u d₁ q kept ∧ Walk A c q kept v d₂ r left ∧ d = d₁ ++ d₂ := by
  induction u generalizing p saved d with
  | nil => exact ⟨p, saved, [], d, .nil, h, rfl⟩
  | cons cmd u ih =>
    cases h with
    | cons hact hrest =>
      obtain ⟨q, kept, d₁, d₂, hu, hv, rfl⟩ := ih hrest
      exact ⟨q, kept, _, d₂, .cons hact hu, hv, (List.append_assoc ..).symm⟩

theorem length_drawn {w : Word} {d : List Segment} (h : Walk A c p saved w d q kept) :
    d.length = w.countP Command.draws := by
  induction h with
  | nil => rfl
  | cons hact _ ih =>
    rw [List.length_append, Course.length_of_act hact, ih, List.countP_cons]
    omega

/-- A walk comes to each of its commands by the walk of the commands before it. -/
theorem of_append_cons {u v : Word} {cmd : Command} {d : List Segment}
    (h : Walk A c p saved (u ++ cmd :: v) d r left) :
    ∃ d₁ a kept b more s d₂, Walk A c p saved u d₁ a kept ∧
      c.act A cmd a kept = .ok (b, more, s) ∧ d = d₁ ++ (s.toList ++ d₂) := by
  obtain ⟨a, kept, d₁, d₂, hu, hv, rfl⟩ := h.of_append
  cases hv with
  | cons hact _ => exact ⟨d₁, a, kept, _, _, _, _, hu, hact, rfl⟩

theorem exists_act_of_mem {w : Word} {d : List Segment} (h : Walk A c p saved w d q kept)
    {s : Segment} (hs : s ∈ d) :
    ∃ u cmd v d₁ a before b after, w = u ++ cmd :: v ∧ Walk A c p saved u d₁ a before ∧
      c.act A cmd a before = .ok (b, after, some s) := by
  induction h with
  | nil => cases hs
  | @cons cmd w p q r saved kept left t d hact _ ih =>
    rcases List.mem_append.mp hs with hs | hs
    · obtain rfl := Option.mem_toList.mp hs
      exact ⟨[], cmd, w, [], p, saved, q, kept, rfl, .nil, hact⟩
    · obtain ⟨u, cmd', v, d₁, a, before, b, after, rfl, hu, hs⟩ := ih hs
      exact ⟨cmd :: u, cmd', v, _, a, before, b, after, rfl, .cons hact hu, hs⟩

theorem exists_stroke {w : Word} {d : List Segment} (h : Walk A c p saved w d q kept)
    {s : Segment} (hs : s ∈ d) : ∃ a b, c.stroke A a = .ok (b, s) := by
  obtain ⟨_, _, _, _, a, _, b, _, _, _, hact⟩ := h.exists_act_of_mem hs
  exact ⟨a, b, Course.stroke_of_act hact⟩

end Walk

/-- A word is walked to its end, or up to a command that faults. -/
theorem walk_cases (A : Arithmetic) (c : Course) (w : Word) (p : Pen) (saved : List Pen) :
    (∃ d q kept, Walk A c p saved w d q kept) ∨
      ∃ u cmd v d q kept e, w = u ++ cmd :: v ∧ Walk A c p saved u d q kept ∧
        c.act A cmd q kept = .error e := by
  induction w generalizing p saved with
  | nil => exact .inl ⟨[], p, saved, .nil⟩
  | cons cmd w ih =>
    rcases hact : c.act A cmd p saved with e | ⟨q, kept, s⟩
    · exact .inr ⟨[], cmd, w, [], p, saved, e, rfl, .nil, hact⟩
    · rcases ih q kept with ⟨d, r, left, hw⟩ | ⟨u, cmd', v, d, r, left, e, rfl, hu, he⟩
      · exact .inl ⟨_, r, left, .cons hact hw⟩
      · exact .inr ⟨cmd :: u, cmd', v, _, r, left, e, rfl, .cons hact hu, he⟩

variable {σ : Type} (draw : σ → Segment → σ)

theorem follow_of_walk {w : Word} {d : List Segment} (h : Walk A c p saved w d q kept)
    (canvas : σ) (drawn taken : ℕ) :
    c.follow A draw ⟨p, saved, canvas, drawn, taken⟩ w =
      (⟨q, kept, d.foldl draw canvas, drawn + d.length, taken + w.length⟩, none) := by
  induction h generalizing canvas drawn taken with
  | nil => rfl
  | @cons cmd w p q r saved kept left s d hact _ ih =>
    rw [Course.follow, Course.advance, hact]
    cases s with
    | none =>
      simp only [ih, Option.toList_none, List.nil_append, List.length_cons]
      rw [Nat.add_right_comm, Nat.add_assoc taken]
    | some s =>
      simp only [ih, Option.toList_some, List.cons_append, List.nil_append, List.foldl_cons,
        List.length_cons]
      rw [Nat.add_right_comm taken, Nat.add_right_comm drawn, Nat.add_assoc taken,
        Nat.add_assoc drawn]

theorem runOn_of_walk {w : Word} {d : List Segment} (h : Walk A c p [] w d q kept) (canvas : σ) :
    c.runOn A draw canvas w p = ⟨d.foldl draw canvas, d.length, kept.length, none⟩ := by
  rw [Course.runOn, Turtle.start, follow_of_walk draw h, Nat.zero_add]
  rfl

theorem runOn_of_fault {u v : Word} {cmd : Command} {d : List Segment} {e : Cause}
    (h : Walk A c p [] u d q kept) (he : c.act A cmd q kept = .error e) (canvas : σ) :
    c.runOn A draw canvas (u ++ cmd :: v) p =
      ⟨d.foldl draw canvas, d.length, kept.length, some ⟨e, u.length, d.length⟩⟩ := by
  rw [Course.runOn, Turtle.start, Course.follow_append, follow_of_walk draw h]
  simp only [Course.follow, Course.advance, he, Nat.zero_add, Option.map_some]

/-! ## Runs that collect their segments -/

theorem run_of_walk {w : Word} {d : List Segment} (h : Walk A c p [] w d q kept) :
    c.run A w p = ⟨d.reverse, d.length, kept.length, none⟩ := by
  rw [Course.run, runOn_of_walk _ h, List.foldl_flip_cons_eq_append, List.map_id', List.append_nil]

theorem run_of_fault {u v : Word} {cmd : Command} {d : List Segment} {e : Cause}
    (h : Walk A c p [] u d q kept) (he : c.act A cmd q kept = .error e) :
    c.run A (u ++ cmd :: v) p =
      ⟨d.reverse, d.length, kept.length, some ⟨e, u.length, d.length⟩⟩ := by
  rw [Course.run, runOn_of_fault _ h he, List.foldl_flip_cons_eq_append, List.map_id',
    List.append_nil]

/-- A run leaves on any canvas what it collects, and counts and ends alike. -/
theorem runOn_eq_run (w : Word) (p : Pen) (canvas : σ) :
    c.runOn A draw canvas w p =
      ⟨(c.run A w p).segments.foldl draw canvas, (c.run A w p).drawn, (c.run A w p).unmatched,
        (c.run A w p).fault⟩ := by
  rcases walk_cases A c w p [] with ⟨d, q, kept, hw⟩ | ⟨u, cmd, v, d, q, kept, e, rfl, hu, he⟩
  · rw [runOn_of_walk draw hw, run_of_walk hw, Run.segments, List.reverse_reverse]
  · rw [runOn_of_fault draw hu he, run_of_fault hu he, Run.segments, List.reverse_reverse]

theorem exists_stroke_of_run {w : Word} {s : Segment} (h : s ∈ (c.run A w p).segments) :
    ∃ a b, c.stroke A a = .ok (b, s) := by
  rcases walk_cases A c w p [] with ⟨d, q, kept, hw⟩ | ⟨u, cmd, v, d, q, kept, e, rfl, hu, he⟩
  · rw [run_of_walk hw, Run.segments, List.reverse_reverse] at h
    exact hw.exists_stroke h
  · rw [run_of_fault hu he, Run.segments, List.reverse_reverse] at h
    exact hu.exists_stroke h

theorem segments_of_walk {w : Word} {d : List Segment} (h : Walk A c p [] w d q kept) :
    (c.run A w p).segments = d := by
  rw [run_of_walk h, Run.segments, List.reverse_reverse]

theorem walk_of_run {w : Word} (h : (c.run A w p).fault = none) :
    ∃ d q kept, Walk A c p [] w d q kept := by
  rcases walk_cases A c w p [] with hw | ⟨u, cmd, v, d, q, kept, e, rfl, hu, he⟩
  · exact hw
  · rw [run_of_fault hu he] at h
    cases h

/-- A fault tells how far the word was walked, and what it was that could not be done. -/
theorem walk_of_fault {w : Word} {f : Fault} (h : (c.run A w p).fault = some f) :
    ∃ u cmd v d q kept, w = u ++ cmd :: v ∧ Walk A c p [] u d q kept ∧
      c.act A cmd q kept = .error f.cause ∧ f.position = u.length ∧ f.drawn = d.length := by
  rcases walk_cases A c w p [] with ⟨d, q, kept, hw⟩ | ⟨u, cmd, v, d, q, kept, e, rfl, hu, he⟩
  · rw [run_of_walk hw] at h
    cases h
  · rw [run_of_fault hu he] at h
    cases h
    exact ⟨u, cmd, v, d, q, kept, rfl, hu, he, rfl, rfl⟩

end

/-- The arithmetic and the course of a turtle that goes straight ahead. -/
def straight : Arithmetic × Course := (.rounded (fun _ => 1) (fun _ => 0), ⟨8, 0, false⟩)

end BracketTurtle
