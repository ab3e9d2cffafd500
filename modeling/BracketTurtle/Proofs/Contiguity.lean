import BracketTurtle.Proofs.PartialRuns
import BracketTurtle.Proofs.Polylines
import BracketTurtle.Proofs.RoundedArithmetic

/-!
# Contiguity

A pen draws its next segment from where the last one ended, whatever it is turned, saved or told to
ignore in between: only a `pop` takes it elsewhere. So a plotter opens a new line for the first
segment of a run and at most one for every `pop` between two draws; all other segments make the
latest line longer.
-/

namespace BracketTurtle

/-! ## The `pop`s between draws -/

namespace Word

def untilLastDraw : Word → Word
  | [] => []
  | cmd :: w => if (cmd :: w).any Command.draws then cmd :: untilLastDraw w else []

def fromFirstDraw (w : Word) : Word := w.dropWhile fun cmd => !cmd.draws

/-- How many `pop`s stand between two drawing commands. -/
def popsBetweenDraws (w : Word) : ℕ := (untilLastDraw w.fromFirstDraw).count .pop

example : popsBetweenDraws [.push, .pop, .forward, .push, .pop, .pop, .forward2, .pop] = 2 := by
  decide

/-- How many lines a word can open, when the pen is where the latest line ends, or is not. -/
def opens : Bool → Word → ℕ
  | _, [] => 0
  | joined, cmd :: w =>
    if cmd.draws then (if joined then 0 else 1) + opens true w
    else if cmd = .pop then opens false w
    else opens joined w

section

variable {cmd : Command} {w : Word}

theorem untilLastDraw_eq_nil (h : w.any Command.draws = false) : w.untilLastDraw = [] := by
  cases w with
  | nil => rfl
  | cons cmd w => rw [untilLastDraw, h, if_neg Bool.false_ne_true]

theorem untilLastDraw_cons (h : (cmd :: w).any Command.draws = true) :
    untilLastDraw (cmd :: w) = cmd :: w.untilLastDraw := by
  rw [untilLastDraw, if_pos h]

theorem popsBetweenDraws_cons_of_draws (h : cmd.draws = true) :
    popsBetweenDraws (cmd :: w) = w.untilLastDraw.count .pop := by
  have hcmd : cmd ≠ .pop := by
    rintro rfl
    cases h
  have hwhole : fromFirstDraw (cmd :: w) = cmd :: w := by simp [fromFirstDraw, h]
  rw [popsBetweenDraws, hwhole, untilLastDraw_cons (by simp [h]), List.count_cons_of_ne hcmd]

theorem popsBetweenDraws_cons_of_not_draws (h : cmd.draws = false) :
    popsBetweenDraws (cmd :: w) = w.popsBetweenDraws := by
  simp [popsBetweenDraws, fromFirstDraw, h]

theorem opens_eq_zero (h : w.any Command.draws = false) (joined : Bool) : opens joined w = 0 := by
  induction w generalizing joined with
  | nil => rfl
  | cons cmd w ih =>
    rw [List.any_cons, Bool.or_eq_false_iff] at h
    rw [opens, h.1, if_neg Bool.false_ne_true, ih h.2, ih h.2, ite_self]

end

theorem popsBetweenDraws_le (w : Word) : w.popsBetweenDraws ≤ w.untilLastDraw.count .pop := by
  induction w with
  | nil => exact le_rfl
  | cons cmd w ih =>
    cases hdraws : cmd.draws with
    | true =>
      rw [popsBetweenDraws_cons_of_draws hdraws, untilLastDraw_cons (by simp [hdraws])]
      exact (List.sublist_cons_self cmd _).count_le .pop
    | false =>
      rw [popsBetweenDraws_cons_of_not_draws hdraws]
      apply ih.trans
      cases hany : w.any Command.draws with
      | true =>
        rw [untilLastDraw_cons (by simp [hany])]
        exact (List.sublist_cons_self cmd _).count_le .pop
      | false => simp [untilLastDraw_eq_nil hany]

/-- Where the pen is at the end of the latest line, each line to open needs a `pop` before a draw;
elsewhere the first draw opens one, and each further line needs a `pop` between two draws. -/
theorem opens_le (w : Word) :
    opens true w ≤ w.untilLastDraw.count .pop ∧ opens false w ≤ 1 + w.popsBetweenDraws := by
  induction w with
  | nil => exact ⟨le_rfl, Nat.zero_le _⟩
  | cons cmd w ih =>
    obtain ⟨hjoined, hapart⟩ := ih
    cases hany : (cmd :: w).any Command.draws with
    | false =>
      rw [opens_eq_zero hany, opens_eq_zero hany]
      exact ⟨Nat.zero_le _, Nat.zero_le _⟩
    | true =>
      rw [untilLastDraw_cons hany]
      cases hdraws : cmd.draws with
      | true =>
        have hle := (List.sublist_cons_self cmd (untilLastDraw w)).count_le .pop
        rw [popsBetweenDraws_cons_of_draws hdraws]
        simp only [opens, hdraws, if_true, Bool.false_eq_true, if_false]
        omega
      | false =>
        rw [popsBetweenDraws_cons_of_not_draws hdraws]
        by_cases hpop : cmd = .pop
        · subst hpop
          have hle := popsBetweenDraws_le w
          simp only [opens, hdraws, Bool.false_eq_true, if_false, if_true, List.count_cons_self]
          omega
        · simp only [opens, hdraws, Bool.false_eq_true, if_false, if_neg hpop,
            List.count_cons_of_ne hpop]
          exact ⟨hjoined, hapart⟩

theorem popsBetweenDraws_eq_zero {w : Word} (h : .pop ∉ w) : w.popsBetweenDraws = 0 := by
  have hsub (w : Word) : w.untilLastDraw.Sublist w := by
    induction w with
    | nil => exact .slnil
    | cons cmd w ih =>
      rw [untilLastDraw]
      split_ifs
      · exact ih.cons_cons cmd
      · exact List.nil_sublist _
  rw [popsBetweenDraws, List.count_eq_zero]
  intro hmem
  exact h ((List.dropWhile_suffix _).subset ((hsub _).subset hmem))

end Word

/-! ## Where a pen draws next -/

section

variable {A : Arithmetic} {c : Course} {p q : Pen} {saved kept : List Pen} {w : Word}
  {d : List Segment} {start : Pen}

theorem Point.same_self {a : Point} (h : a.IsFinite) : a.same a = true := by
  have hcoordinate {x : Coordinate} (hx : x.IsFinite) : x.same x = true := by
    cases x with
    | pixel n => exact Coordinate.same_iff.mpr ⟨_, rfl, rfl⟩
    | exact x =>
      obtain ⟨v, hv⟩ := Number.isFinite_iff.mp hx
      exact Coordinate.same_iff.mpr ⟨_, hv, hv⟩
  exact Bool.and_eq_true_iff.mpr ⟨hcoordinate h.1, hcoordinate h.2⟩

theorem Course.point_of_act {cmd : Command} {s : Option Segment}
    (h : c.act A cmd p saved = .ok (q, kept, s)) (hdraws : cmd.draws = false) (hpop : cmd ≠ .pop) :
    s = none ∧ c.point A q = c.point A p := by
  cases acts_of_act h with
  | forward | forward2 => cases hdraws
  | pop => exact absurd rfl hpop
  | _ => exact ⟨rfl, rfl⟩

theorem Walk.point_of_idle (h : Walk A c p saved w d q kept)
    (hw : ∀ cmd ∈ w, cmd.draws = false ∧ cmd ≠ .pop) : d = [] ∧ c.point A q = c.point A p := by
  induction h with
  | nil => exact ⟨rfl, rfl⟩
  | cons hact _ ih =>
    obtain ⟨⟨hdraws, hpop⟩, hrest⟩ := List.forall_mem_cons.mp hw
    obtain ⟨rfl, hpoint⟩ := Course.point_of_act hact hdraws hpop
    obtain ⟨rfl, hpoint'⟩ := ih hrest
    exact ⟨rfl, hpoint'.trans hpoint⟩

theorem Course.exists_stroke_of_act {cmd : Command} {s : Option Segment}
    (h : c.act A cmd p saved = .ok (q, kept, s)) (hdraws : cmd.draws = true) :
    ∃ t, s = some t ∧ c.stroke A p = .ok (q, t) := by
  cases acts_of_act h with
  | forward hs | forward2 hs => exact ⟨_, rfl, hs⟩
  | _ => cases hdraws

/-- Of two draws without a `pop` between them the second starts where the first ends. -/
theorem Walk.contiguous {u v rest : Word} {cmd cmd' : Command}
    (h : Walk A c p saved (u ++ cmd :: (v ++ cmd' :: rest)) d q kept) (hcmd : cmd.draws = true)
    (hcmd' : cmd'.draws = true) (hv : ∀ x ∈ v, x.draws = false ∧ x ≠ .pop) :
    ∃ s s', d[u.countP Command.draws]? = some s ∧ d[u.countP Command.draws + 1]? = some s' ∧
      s'.start = s.stop := by
  obtain ⟨a, mid, d₁, d₂, hu, hafter, rfl⟩ := h.of_append
  cases hafter with
  | cons hact hafter =>
    obtain ⟨b, mid', e₁, e₂, hidle, hlast, rfl⟩ := hafter.of_append
    cases hlast with
    | cons hact' _ =>
      obtain ⟨s, rfl, hs⟩ := Course.exists_stroke_of_act hact hcmd
      obtain ⟨s', rfl, hs'⟩ := Course.exists_stroke_of_act hact' hcmd'
      obtain ⟨rfl, hpoint⟩ := hidle.point_of_idle hv
      have hstop := (Course.stroke_eq_ok hs).2.2
      have hstart := (Course.stroke_eq_ok hs').1
      rw [hpoint, hstop] at hstart
      rw [← hu.length_drawn]
      exact ⟨s, s', by simp, by simp, (Except.ok.inj hstart).symm⟩

/-- The commands that a run has carried out: all of them, or those before its fault. -/
def Run.carriedOut {σ : Type} (r : Run σ) (w : Word) : Word :=
  match r.fault with
  | none => w
  | some f => w.take f.position

theorem prefix_of_carriedOut {σ : Type} (r : Run σ) (w : Word) : r.carriedOut w <+: w := by
  unfold Run.carriedOut
  split
  · exact List.prefix_refl w
  · exact List.take_prefix _ w

theorem walk_carriedOut (A : Arithmetic) (c : Course) (w : Word) (start : Pen) :
    ∃ q kept, Walk A c start [] ((c.run A w start).carriedOut w) (c.run A w start).segments q
      kept := by
  rcases walk_cases A c w start [] with
    ⟨d, q, kept, hwalk⟩ | ⟨u, cmd, v, d, q, kept, e, rfl, hwalk, he⟩
  · rw [segments_of_walk hwalk, run_of_walk hwalk]
    exact ⟨q, kept, hwalk⟩
  · rw [run_of_fault hwalk he, Run.segments, List.reverse_reverse]
    simp only [Run.carriedOut, List.take_left]
    exact ⟨q, kept, hwalk⟩

theorem contiguous_of_run {u v rest : Word} {cmd cmd' : Command} {s s' : Segment}
    (hw : w = u ++ cmd :: (v ++ cmd' :: rest)) (hcmd : cmd.draws = true)
    (hcmd' : cmd'.draws = true) (hv : ∀ x ∈ v, x.draws = false ∧ x ≠ .pop)
    (hs : (c.run A w start).segments[u.countP Command.draws]? = some s)
    (hs' : (c.run A w start).segments[u.countP Command.draws + 1]? = some s') :
    s'.start = s.stop := by
  obtain ⟨q, kept, hwalk⟩ := walk_carriedOut A c w start
  have hprefix := prefix_of_carriedOut (c.run A w start) w
  generalize (c.run A w start).carriedOut w = x at hwalk hprefix
  generalize (c.run A w start).segments = d at hwalk hs hs'
  have hsplit : w = (u ++ cmd :: v) ++ [cmd'] ++ rest := by simp [hw]
  -- The second draw has been carried out, since it has drawn.
  have hreached : (u ++ cmd :: v) ++ [cmd'] <+: x := by
    rcases List.prefix_or_prefix_of_prefix ⟨rest, hsplit.symm⟩ hprefix with hx | hx
    · exact hx
    · rcases List.prefix_concat_iff.mp hx with rfl | hx
      · exact List.prefix_refl _
      · exfalso
        have hidle : v.countP Command.draws = 0 :=
          List.countP_eq_zero.mpr fun x hx => by simp [(hv x hx).1]
        have hle := hx.sublist.countP_le (p := Command.draws)
        rw [← hwalk.length_drawn, List.countP_append, List.countP_cons, hidle, hcmd] at hle
        have hlt := (List.getElem?_eq_some_iff.mp hs').1
        simp at hle
        omega
  obtain ⟨z, rfl⟩ := hreached
  rw [List.append_assoc, List.append_assoc, List.cons_append, List.singleton_append] at hwalk
  obtain ⟨t, t', ht, ht', hstart⟩ := hwalk.contiguous hcmd hcmd' hv
  obtain rfl := Option.some.inj (hs.symm.trans ht)
  obtain rfl := Option.some.inj (hs'.symm.trans ht')
  exact hstart

/-! ## The lines of a run -/

/-- The pen is at the end of the latest chain. -/
def Course.AtTip (A : Arithmetic) (c : Course) (p : Pen) (chains : List Chain) : Prop :=
  ∃ chain rest a, chains = chain :: rest ∧ c.point A p = .ok a ∧ chain.tip.same a = true

namespace Surface

variable {chains : List Chain} {s : Segment} (P : Chain → Bool)

/-- How many chains are of a kind, when the latest counts as one: it may still become one. -/
def pending : List Chain → ℕ
  | [] => 0
  | _ :: rest => rest.countP P + 1

theorem countP_le_pending (chains : List Chain) : chains.countP P ≤ pending P chains := by
  cases chains with
  | nil => exact le_rfl
  | cons chain rest =>
    rw [List.countP_cons, pending]
    split <;> omega

theorem pending_plot_le (chains : List Chain) (s : Segment) :
    pending P (plot chains s) ≤ chains.countP P + 1 := by
  cases chains with
  | nil => exact le_rfl
  | cons chain rest =>
    rw [plot]
    split_ifs
    · exact Nat.add_le_add_right ((List.sublist_cons_self chain rest).countP_le) 1
    · exact le_rfl

theorem pending_plot_of_atTip (h : c.AtTip A p chains) (hs : c.stroke A p = .ok (q, s)) :
    pending P (plot chains s) = pending P chains := by
  obtain ⟨chain, rest, a, rfl, ha, hsame⟩ := h
  obtain rfl := Except.ok.inj (ha.symm.trans (Course.stroke_eq_ok hs).1)
  rw [plot, if_pos hsame]
  rfl

theorem atTip_plot (chains : List Chain) (hs : c.stroke A p = .ok (q, s)) :
    c.AtTip A q (plot chains s) := by
  have hstop := (Course.stroke_eq_ok hs).2.2
  have hself : s.stop.same s.stop = true := Point.same_self (Course.isFinite_of_point hstop)
  have hextended (chain : Chain) : (chain.extend s.stop).tip.same s.stop = true := by
    rw [Chain.same_tip_extend, hself]
  cases chains with
  | nil => exact ⟨_, [], s.stop, rfl, hstop, hextended _⟩
  | cons chain rest =>
    rw [plot]
    split_ifs
    · exact ⟨_, rest, s.stop, rfl, hstop, hextended chain⟩
    · exact ⟨_, chain :: rest, s.stop, rfl, hstop, hextended _⟩

end Surface

theorem Walk.countP_plot (P : Chain → Bool) (h : Walk A c p saved w d q kept)
    (chains : List Chain) :
    (d.foldl Surface.plot chains).countP P ≤ chains.countP P + w.opens false ∧
      (c.AtTip A p chains →
        (d.foldl Surface.plot chains).countP P ≤ Surface.pending P chains + w.opens true) := by
  induction h generalizing chains with
  | nil => exact ⟨le_rfl, fun _ => Surface.countP_le_pending P chains⟩
  | @cons cmd w p q r saved kept left s d hact _ ih =>
    cases hdraws : cmd.draws with
    | true =>
      obtain ⟨s, rfl, hs⟩ := Course.exists_stroke_of_act hact hdraws
      have hrest := (ih (Surface.plot chains s)).2 (Surface.atTip_plot chains hs)
      have hle := Surface.pending_plot_le P chains s
      simp only [Word.opens, hdraws, if_true, Bool.false_eq_true, if_false, Option.toList_some,
        List.singleton_append, List.foldl_cons]
      refine ⟨by omega, ?_⟩
      intro htip
      rw [Surface.pending_plot_of_atTip P htip hs] at hrest
      omega
    | false =>
      obtain ⟨hapart, hjoined⟩ := ih chains
      have hle := Surface.countP_le_pending P chains
      by_cases hpop : cmd = .pop
      · subst hpop
        cases Course.acts_of_act hact
        simp only [Word.opens, hdraws, Bool.false_eq_true, if_false, if_true, Option.toList_none,
          List.nil_append]
        exact ⟨hapart, fun _ => hapart.trans (Nat.add_le_add_right hle _)⟩
      · obtain ⟨rfl, hpoint⟩ := Course.point_of_act hact hdraws hpop
        simp only [Word.opens, hdraws, Bool.false_eq_true, if_false, if_neg hpop,
          Option.toList_none, List.nil_append]
        refine ⟨hapart, ?_⟩
        rintro ⟨chain, rest, a, rfl, ha, hsame⟩
        exact hjoined ⟨chain, rest, a, rfl, hpoint.trans ha, hsame⟩

end

/-- The later lines begin with the earlier ones, of which only the last may have become longer. -/
inductive LinesKept : List (List Point) → List (List Point) → Prop
  | blank (lines : List (List Point)) : LinesKept [] lines
  | lines {last longer : List Point} (front more : List (List Point)) :
      last <+: longer → LinesKept (front ++ [last]) (front ++ longer :: more)

namespace Surface

theorem linesKept_append (lines more : List (List Point)) : LinesKept lines (lines ++ more) := by
  rcases List.eq_nil_or_concat' lines with rfl | ⟨front, last, rfl⟩
  · exact .blank _
  · rw [List.append_assoc, List.singleton_append]
    exact .lines front more (List.prefix_refl last)

theorem polylines_append (a b : List Chain) : polylines (a ++ b) = polylines b ++ polylines a := by
  simp [polylines]

theorem polylines_singleton (c : Chain) :
    polylines [c] = if 2 ≤ c.points.length then [c.points] else [] := by
  simp [polylines, List.filter_singleton]

theorem length_polylines (chains : List Chain) :
    (polylines chains).length = chains.countP fun c => 2 ≤ c.points.length := by
  rw [polylines, ← List.countP_eq_length_filter, List.countP_map, List.countP_reverse]
  rfl

/-- A line that becomes longer stays a line; what was no line yet may become one. -/
theorem linesKept_of_keptIn {chains later : List Chain}
    (h : KeptIn (.plotter chains) (.plotter later)) :
    LinesKept (polylines chains) (polylines later) := by
  cases h with
  | blank => exact .blank _
  | @plotter chain longer rest more hpre =>
    have hearlier : polylines (chain :: rest) = polylines rest ++ polylines [chain] :=
      polylines_append [chain] rest
    have hlater : polylines (more ++ longer :: rest) =
        polylines rest ++ (polylines [longer] ++ polylines more) := by
      rw [polylines_append, ← List.singleton_append, polylines_append, List.append_assoc]
    rw [hearlier, hlater, polylines_singleton chain]
    split_ifs with hline
    · have hlonger : polylines [longer] = [longer.points] := by
        rw [polylines_singleton, if_pos (hline.trans hpre.length_le)]
      rw [hlonger]
      exact .lines _ _ hpre
    · rw [List.append_nil]
      exact linesKept_append _ _

end Surface

/-- A run opens one chain more, of any kind, than `pop`s were carried out between its draws, or
fewer. -/
theorem countP_plot_of_run (A : Arithmetic) (c : Course) (w : Word) (start : Pen) (P : Chain → Bool)
    (chains : List Chain) :
    let r := c.run A w start
    (r.segments.foldl Surface.plot chains).countP P ≤
      chains.countP P + (1 + (r.carriedOut w).popsBetweenDraws) := by
  intro r
  obtain ⟨q, kept, hwalk⟩ := walk_carriedOut A c w start
  have hopens := (Word.opens_le (r.carriedOut w)).2
  exact ((hwalk.countP_plot P chains).1).trans (Nat.add_le_add_left hopens _)

theorem polylines_of_run (A : Arithmetic) (c : Course) (w : Word) (start : Pen)
    (chains : List Chain) :
    let r := c.run A w start
    let later := r.segments.foldl Surface.plot chains
    Surface.KeptIn (.plotter chains) (.plotter later) ∧
      LinesKept (polylines chains) (polylines later) ∧
      (polylines later).length ≤
        (polylines chains).length + (1 + (r.carriedOut w).popsBetweenDraws) := by
  intro r later
  have hkept : Surface.KeptIn (.plotter chains) (.plotter later) := by
    have hall : (Surface.plotter chains).drawAll r.segments = .plotter later :=
      Surface.drawAll_plotter chains r.segments
    rw [← hall]
    exact .drawAll _ _
  refine ⟨hkept, Surface.linesKept_of_keptIn hkept, ?_⟩
  rw [Surface.length_polylines, Surface.length_polylines]
  exact countP_plot_of_run A c w start _ chains

/-- The draws of a run are contiguous. A segment starts exactly where the one before it ends, unless
a `pop` stands between their commands. So on a plotter, whatever is on it, a run opens at most one
line more than `pop`s were carried out between two draws, and the lines that were there stay, of
which the last may become longer; on a blank plotter a word without `pop` leaves at most one line.
All this holds whether the run ends normally or with a fault. -/
theorem draws_contiguous (A : Arithmetic) (c : Course) (w : Word) (start : Pen) :
    let r := c.run A w start
    let pops := (r.carriedOut w).popsBetweenDraws
    (∀ (u v rest : Word) (cmd cmd' : Command), w = u ++ cmd :: (v ++ cmd' :: rest) →
      cmd.draws = true → cmd'.draws = true → (∀ x ∈ v, x.draws = false ∧ x ≠ .pop) →
      ∀ s s' : Segment,
        r.segments[u.countP Command.draws]? = some s →
        r.segments[u.countP Command.draws + 1]? = some s' →
          s'.start = s.stop ∧ s.leadsTo s' = true) ∧
    (∀ chains : List Chain,
      let later := r.segments.foldl Surface.plot chains
      (c.runOn A Surface.draw (.plotter chains) w start).canvas = .plotter later ∧
        Surface.KeptIn (.plotter chains) (.plotter later) ∧
        later.length ≤ chains.length + (1 + pops) ∧
        LinesKept (polylines chains) (polylines later) ∧
        (polylines later).length ≤ (polylines chains).length + (1 + pops)) ∧
    (polylines (r.segments.foldl Surface.plot [])).length ≤ 1 + pops ∧
    (.pop ∉ w → (polylines (r.segments.foldl Surface.plot [])).length ≤ 1) := by
  intro r pops
  have hblank : (polylines (r.segments.foldl Surface.plot [])).length ≤ 1 + pops := by
    have hnone : polylines [] = [] := rfl
    have hle := (polylines_of_run A c w start []).2.2
    rwa [hnone, List.length_nil, zero_add] at hle
  refine ⟨?_, ?_, hblank, ?_⟩
  · intro u v rest cmd cmd' hw hcmd hcmd' hv s s' hs hs'
    have hstart := contiguous_of_run hw hcmd hcmd' hv hs hs'
    have hfinite : s.stop.IsFinite := (isFinite_of_run (List.mem_of_getElem? hs)).2
    rw [Segment.leadsTo, hstart]
    exact ⟨rfl, Point.same_self hfinite⟩
  · intro chains later
    obtain ⟨hkept, hlines, hcount⟩ := polylines_of_run A c w start chains
    refine ⟨?_, hkept, ?_, hlines, hcount⟩
    · rw [runOn_eq_run]
      exact Surface.drawAll_plotter chains r.segments
    · simpa using countP_plot_of_run A c w start (fun _ => true) chains
  · intro hpop
    have hnone : pops = 0 := Word.popsBetweenDraws_eq_zero fun hmem =>
      hpop ((prefix_of_carriedOut r w).subset hmem)
    rwa [hnone] at hblank

/-- The second segment continues the first around a turn and a `push`; a `pop` takes the third
elsewhere. -/
theorem draws_contiguous_turned :
    let run (w : Word) := straight.2.run straight.1 w .origin
    let w : Word := [.forward, .right, .push, .forward, .pop, .forward2]
    (∃ s s', (run w).segments[0]? = some s ∧ (run w).segments[1]? = some s' ∧
      s'.start = s.stop ∧ s.leadsTo s' = true) ∧
    (polylines ((run w).segments.foldl Surface.plot [])).length = 2 ∧
    ((run w).carriedOut w).popsBetweenDraws = 1 ∧
    (polylines ((run (w.take 4)).segments.foldl Surface.plot [])).length ≤ 1 := by
  intro run w
  have hcontiguous := (draws_contiguous straight.1 straight.2 w .origin).1 [] [.right, .push]
    [.pop, .forward2] .forward .forward rfl rfl rfl (by decide)
  have hfewer := (draws_contiguous straight.1 straight.2 (w.take 4) .origin).2.2.2 (by decide)
  have hlength : (run w).segments.length = 3 := by decide +kernel
  have hfirst := List.getElem?_eq_getElem (l := (run w).segments) (i := 0) (by omega)
  have hsecond := List.getElem?_eq_getElem (l := (run w).segments) (i := 1) (by omega)
  refine ⟨?_, by decide +kernel, by decide +kernel, hfewer⟩
  exact ⟨_, _, hfirst, hsecond, hcontiguous _ _ hfirst hsecond⟩

end BracketTurtle
