import BracketTurtle.Proofs.Depths

/-!
# Open branches

A `push` is closed by the `pop` before which its branch is balanced; without such a `pop` the branch
stays open. What an open branch saves is never looked at again. How far a word reaches below the
saved pens with which it starts is counted from its end, so two turtles may carry different pens
below that reach and draw the same. Hence a word without its open branches draws as before, and the
`pop`s that may follow a word are as many as its branches are open.
-/

namespace BracketTurtle

namespace Word

/-- The word closes a branch that was opened just before it. -/
def ClosesBranch (w : Word) : Prop := ∃ u v : Word, w = u ++ .pop :: v ∧ u.Balanced

/-- How many of the pens saved before the word its `pop`s take. -/
def reach : Word → ℕ
  | [] => 0
  | .push :: w => reach w - 1
  | .pop :: w => reach w + 1
  | _ :: w => reach w

theorem Covered.cons {depth next : ℕ} {cmd : Command} {w : Word} (h : Covered next w)
    (hn : next + [cmd].count .pop = depth + [cmd].count .push) : Covered depth (cmd :: w) := by
  intro u hu
  cases u with
  | nil => exact Nat.zero_le _
  | cons x u =>
    obtain ⟨rfl, hrest⟩ := List.cons_prefix_cons.mp hu
    have hc := h u hrest
    rw [← List.singleton_append, List.count_append, List.count_append]
    omega

/-- A word is covered by as many saved pens as it takes, and by no fewer. -/
theorem covered_iff {depth : ℕ} {w : Word} : Covered depth w ↔ w.reach ≤ depth := by
  induction w generalizing depth with
  | nil =>
    have hnil : Covered depth [] := by
      intro u hu
      simp [List.prefix_nil.mp hu]
    simp [reach, hnil]
  | cons cmd w ih =>
    have hiff (next : ℕ) (hn : next + [cmd].count .pop = depth + [cmd].count .push) :
        Covered depth (cmd :: w) ↔ reach w ≤ next :=
      ⟨fun h => ih.mp (h.tail hn), fun h => (ih.mpr h).cons hn⟩
    cases cmd with
    | push =>
      have hpush : depth + 1 + [Command.push].count .pop = depth + [Command.push].count .push := rfl
      rw [hiff (depth + 1) hpush, reach]
      omega
    | pop =>
      cases depth with
      | zero =>
        have hnot : ¬Covered 0 (.pop :: w) := fun h => absurd h.pos_of_pop (lt_irrefl 0)
        simp [reach, hnot]
      | succ depth => simp [hiff depth rfl, reach]
    | _ => exact hiff depth rfl

theorem covered_of_nonneg {w : Word} (h : ∀ j, 0 ≤ balance (w.take j)) : Covered 0 w := by
  rintro u ⟨v, rfl⟩
  have hu := h u.length
  rw [List.take_left, balance] at hu
  omega

theorem closesBranch_iff {w : Word} : w.ClosesBranch ↔ 0 < w.reach := by
  constructor
  · rintro ⟨u, v, rfl, hu⟩
    by_contra hreach
    have hcovered : Covered 0 (u ++ .pop :: v) := covered_iff.mpr (not_lt.mp hreach)
    have hle := hcovered (u ++ [.pop]) ⟨v, by simp⟩
    rw [List.count_append, List.count_append, hu.even] at hle
    simp at hle
  · intro hreach
    rcases nesting_cases w with ⟨n, _, _, hnonneg⟩ | ⟨p, _, hp⟩
    · exact absurd (covered_iff.mp (covered_of_nonneg hnonneg)) (not_le.mpr hreach)
    · obtain ⟨hpop, hclosed⟩ := hp.getElem?_eq_pop
      refine ⟨w.take p, w.drop (p + 1), ?_, ?_, ?_⟩
      · obtain ⟨hlt, hget⟩ := List.getElem?_eq_some_iff.mp hpop
        rw [← hget, ← List.drop_eq_getElem_cons hlt, List.take_append_drop]
      · rintro u hu
        obtain ⟨j, hj, rfl⟩ : ∃ j, j ≤ p ∧ u = w.take j := by
          refine ⟨u.length, ?_, ?_⟩
          · exact hu.length_le.trans (List.length_take_le p w)
          · exact List.prefix_iff_eq_take.mp (hu.trans (List.take_prefix p w))
        have hbalance := hp.nonneg_take hj
        rw [balance] at hbalance
        omega
      · rw [balance] at hclosed
        omega

instance (w : Word) : Decidable w.ClosesBranch := decidable_of_iff _ closesBranch_iff.symm

/-- The word without the `push`es that no `pop` after them closes. -/
def withoutOpen : Word → Word
  | [] => []
  | .push :: w => if ClosesBranch w then .push :: withoutOpen w else withoutOpen w
  | cmd :: w => cmd :: withoutOpen w

example : withoutOpen [.push, .forward, .push, .push, .pop, .pop, .push] =
    [.forward, .push, .push, .pop, .pop] := by decide

theorem filter_withoutOpen (w : Word) :
    w.withoutOpen.filter (· ≠ .push) = w.filter (· ≠ .push) := by
  induction w with
  | nil => rfl
  | cons cmd w ih =>
    cases cmd with
    | push =>
      rw [withoutOpen]
      split_ifs <;> simpa using ih
    | _ => simpa [withoutOpen] using ih

theorem count_push_withoutOpen (w : Word) :
    w.withoutOpen.count .push + w.reach = w.count .pop := by
  induction w with
  | nil => rfl
  | cons cmd w ih =>
    cases cmd with
    | push =>
      rw [withoutOpen, reach]
      split_ifs with hcloses
      · have hpos := closesBranch_iff.mp hcloses
        simp
        omega
      · rw [closesBranch_iff] at hcloses
        simp
        omega
    | pop =>
      simp [withoutOpen, reach]
      omega
    | _ => simpa [withoutOpen, reach] using ih

theorem reach_eq_zero_of_nesting {w : Word} {n : Nesting} (h : w.nesting = .ok n) :
    w.reach = 0 := by
  obtain ⟨_, hnonneg⟩ := of_nesting_eq_ok h
  exact Nat.le_zero.mp (covered_iff.mp (covered_of_nonneg hnonneg))

end Word

variable {A : Arithmetic} {c : Course} {p q : Pen} {saved saved' kept : List Pen} {w : Word}
  {d : List Segment} {start : Pen}

/-! ## Walks without the open branches -/

/-- The latest `n` saved pens are there and are the same. -/
inductive SameTop : ℕ → List Pen → List Pen → Prop
  | zero (saved saved' : List Pen) : SameTop 0 saved saved'
  | cons {n : ℕ} {saved saved' : List Pen} (p : Pen) :
      SameTop n saved saved' → SameTop (n + 1) (p :: saved) (p :: saved')

/-- Over pens that are the same as far as they are taken, a command does the same, or it opens a
branch that stays open and can be left out. -/
theorem Course.walk_withoutOpen_of_act {cmd : Command} {v : Word} {s : Option Segment}
    (h : c.act A cmd p saved = .ok (q, kept, s))
    (hsame : SameTop (Word.reach (cmd :: v)) saved saved') :
    ∃ u kept', Word.withoutOpen (cmd :: v) = u ++ Word.withoutOpen v ∧
      Walk A c p saved' u s.toList q kept' ∧ SameTop v.reach kept kept' := by
  cases acts_of_act h with
  | forward hs | forward2 hs =>
    exact ⟨[_], saved', rfl, .single (by simp only [act, hs]), hsame⟩
  | ignore | right | left => exact ⟨[_], saved', rfl, .single rfl, hsame⟩
  | push =>
    rw [Word.withoutOpen]
    rw [Word.reach] at hsame
    split_ifs with hcloses
    · have hpos := Word.closesBranch_iff.mp hcloses
      have hone : SameTop (v.reach - 1 + 1) (p :: saved) (p :: saved') := .cons p hsame
      rw [Nat.sub_add_cancel hpos] at hone
      exact ⟨[.push], p :: saved', rfl, .single rfl, hone⟩
    · have hzero : v.reach = 0 := by
        rw [Word.closesBranch_iff] at hcloses
        omega
      rw [hzero]
      exact ⟨[], saved', rfl, .nil, .zero ..⟩
  | pop =>
    cases hsame with
    | cons _ hsame => exact ⟨[.pop], _, rfl, .single rfl, hsame⟩

/-- A command that faults is no `push`, and no `pop` that takes a pen: it faults over the other pens
too. -/
theorem Course.act_withoutOpen_error {cmd : Command} {v : Word} {e : Cause}
    (h : c.act A cmd p saved = .error e) (hsame : SameTop (Word.reach (cmd :: v)) saved saved') :
    Word.withoutOpen (cmd :: v) = cmd :: Word.withoutOpen v ∧ c.act A cmd p saved' = .error e ∧
      e ≠ .noSavedPen := by
  rcases act_eq_error_iff.mp h with ⟨rfl, rfl, rfl⟩ | ⟨hdraws, hstroke⟩
  · cases hsame
  · have hcause : e ≠ .noSavedPen := by
      rintro rfl
      exact stroke_ne_noSavedPen hstroke
    refine ⟨?_, act_eq_error_iff.mpr (.inr ⟨hdraws, hstroke⟩), hcause⟩
    cases cmd with
    | forward | forward2 => rfl
    | _ => cases hdraws

/-- A walk without the branches that stay open to the end of the word: what comes after the walk
decides which these are. -/
theorem Walk.withoutOpen {rest : Word} (h : Walk A c p saved w d q kept)
    (hsame : SameTop (Word.reach (w ++ rest)) saved saved') :
    ∃ w' kept', Word.withoutOpen (w ++ rest) = w' ++ Word.withoutOpen rest ∧
      Walk A c p saved' w' d q kept' ∧ SameTop rest.reach kept kept' := by
  induction h generalizing saved' with
  | nil => exact ⟨[], saved', rfl, .nil, hsame⟩
  | cons hact _ ih =>
    rw [List.cons_append] at hsame ⊢
    obtain ⟨u, mid, hu, hwalk, hmid⟩ := Course.walk_withoutOpen_of_act hact hsame
    obtain ⟨w', kept', hw', hrest, hkept⟩ := ih hmid
    refine ⟨u ++ w', kept', ?_, hwalk.append hrest, hkept⟩
    rw [hu, hw', List.append_assoc]

/-- What is reported of a fault, apart from its position: its cause, its text and the number of
segments drawn before. -/
def Fault.report (f : Fault) : Cause × String × ℕ := (f.cause, f.message, f.drawn)

theorem Fault.report_of_ne {e : Cause} (h : e ≠ .noSavedPen) (k k' n : ℕ) :
    report ⟨e, k, n⟩ = report ⟨e, k', n⟩ := by
  cases e with
  | noSavedPen => exact absurd rfl h
  | _ => rfl

theorem run_withoutOpen (hreach : w.reach = 0) :
    let r := c.run A w start
    let r' := c.run A w.withoutOpen start
    r'.segments = r.segments ∧ r'.drawn = r.drawn ∧
      r'.fault.map Fault.report = r.fault.map Fault.report := by
  intro r r'
  rcases walk_cases A c w start [] with
    ⟨d, q, kept, hwalk⟩ | ⟨u, cmd, v, d, q, kept, e, rfl, hwalk, he⟩
  · have hsame : SameTop (Word.reach (w ++ [])) [] [] := by
      rw [List.append_nil, hreach]
      exact .zero ..
    obtain ⟨w', kept', hw', hwalk', _⟩ := hwalk.withoutOpen hsame
    have hclosed : w.withoutOpen = w' := by simpa [Word.withoutOpen] using hw'
    have hr : r = ⟨d.reverse, d.length, kept.length, none⟩ := run_of_walk hwalk
    have hr' : r' = ⟨d.reverse, d.length, kept'.length, none⟩ := by
      simp only [r', hclosed, run_of_walk hwalk']
    rw [hr, hr']
    exact ⟨rfl, rfl, rfl⟩
  · have hsame : SameTop (Word.reach (u ++ cmd :: v)) [] [] := by
      rw [hreach]
      exact .zero ..
    obtain ⟨u', kept', hu', hwalk', hkept⟩ := hwalk.withoutOpen hsame
    obtain ⟨hcmd, he', hcause⟩ := Course.act_withoutOpen_error he hkept
    have hr : r = ⟨d.reverse, d.length, kept.length, some ⟨e, u.length, d.length⟩⟩ :=
      run_of_fault hwalk he
    have hr' : r' = ⟨d.reverse, d.length, kept'.length, some ⟨e, u'.length, d.length⟩⟩ := by
      simp only [r', hu', hcmd, run_of_fault hwalk' he']
    rw [hr, hr']
    refine ⟨rfl, rfl, ?_⟩
    rw [Option.map_some, Option.map_some, Fault.report_of_ne hcause]

/-! ## More `pop`s -/

theorem run_append_of_fault {f : Fault} (h : (c.run A w start).fault = some f) (v : Word) :
    c.run A (w ++ v) start = c.run A w start := by
  obtain ⟨u, cmd, v', d, q, kept, rfl, hwalk, he, _, _⟩ := walk_of_fault h
  rw [List.append_assoc, List.cons_append, run_of_fault hwalk he, run_of_fault hwalk he]

theorem Walk.pops (A : Arithmetic) (c : Course) (p : Pen) (taken left : List Pen) :
    ∃ q, Walk A c p (taken ++ left) (List.replicate taken.length .pop) [] q left := by
  induction taken generalizing p with
  | nil => exact ⟨p, .nil⟩
  | cons r taken ih =>
    obtain ⟨q, hwalk⟩ := ih r
    have hpop : c.act A .pop p (r :: (taken ++ left)) = .ok (r, taken ++ left, none) := rfl
    exact ⟨q, .cons hpop hwalk⟩

theorem Walk.append_pops (h : Walk A c p saved w d q kept) {j : ℕ} (hj : j ≤ kept.length) :
    ∃ r, Walk A c p saved (w ++ List.replicate j .pop) d r (kept.drop j) := by
  obtain ⟨r, hpops⟩ := Walk.pops A c q (kept.take j) (kept.drop j)
  rw [List.take_append_drop, List.length_take_of_le hj] at hpops
  have hwalk := h.append hpops
  rw [List.append_nil] at hwalk
  exact ⟨r, hwalk⟩

/-- After a run that does not fault, its saved pens can be taken, and then there is none. -/
theorem run_append_pops (hfault : (c.run A w start).fault = none) :
    let r := c.run A w start
    (∀ j ≤ r.unmatched,
      c.run A (w ++ List.replicate j .pop) start =
        ⟨r.canvas, r.drawn, r.unmatched - j, none⟩) ∧
    c.run A (w ++ List.replicate (r.unmatched + 1) .pop) start =
      ⟨r.canvas, r.drawn, 0, some ⟨.noSavedPen, w.length + r.unmatched, r.drawn⟩⟩ := by
  intro r
  obtain ⟨d, q, kept, hwalk⟩ := walk_of_run hfault
  have hr : r = ⟨d.reverse, d.length, kept.length, none⟩ := run_of_walk hwalk
  rw [hr]
  constructor
  · intro j hj
    obtain ⟨q', hpops⟩ := hwalk.append_pops hj
    rw [run_of_walk hpops, List.length_drop]
  · obtain ⟨q', hpops⟩ := hwalk.append_pops le_rfl
    rw [List.drop_length] at hpops
    have hmissing : c.act A .pop q' [] = .error .noSavedPen := rfl
    rw [List.replicate_succ', ← List.append_assoc, run_of_fault hpops hmissing,
      List.length_append, List.length_replicate]
    rfl

/-- Open branches are inert. In a word with a nesting, leaving out the `push`es that no later `pop`
closes, which are as many as its branches are open, changes neither what a run draws nor how it
ends: its count, or the cause and the text of its fault and the number of segments before it. Up to
as many `pop`s at the end of the word change nothing either. One more draws the same and finds no
saved pen, unless the run has faulted before. -/
theorem open_branches_inert (A : Arithmetic) (c : Course) (w : Word) (start : Pen) {n : Nesting}
    (h : w.nesting = .ok n) :
    let r := c.run A w start
    let closed := c.run A w.withoutOpen start
    let popped (j : ℕ) := c.run A (w ++ List.replicate j .pop) start
    (w.withoutOpen.filter (· ≠ .push) = w.filter (· ≠ .push) ∧
      w.withoutOpen.count .push + n.unmatched = w.count .push) ∧
    (closed.segments = r.segments ∧ closed.drawn = r.drawn ∧
      closed.fault.map Fault.report = r.fault.map Fault.report) ∧
    (∀ j ≤ n.unmatched, (popped j).segments = r.segments ∧ (popped j).drawn = r.drawn ∧
      (popped j).fault = r.fault) ∧
    (r.fault = none →
      (popped (n.unmatched + 1)).segments = r.segments ∧
      (popped (n.unmatched + 1)).fault = some ⟨.noSavedPen, w.length + n.unmatched, r.drawn⟩) := by
  intro r closed popped
  have hreach := Word.reach_eq_zero_of_nesting h
  have hn := (Word.of_nesting_eq_ok h).1
  refine ⟨⟨w.filter_withoutOpen, ?_⟩, run_withoutOpen hreach, ?_, ?_⟩
  · have hcount := w.count_push_withoutOpen
    have hbalance := hn.unmatched
    rw [Word.balance] at hbalance
    omega
  · intro j hj
    cases hfault : r.fault with
    | some f =>
      have hpopped : popped j = r := run_append_of_fault hfault _
      rw [hpopped]
      exact ⟨rfl, rfl, hfault⟩
    | none =>
      rw [← (savedAfter_of_hasNesting hn hfault).2] at hj
      have hpopped : popped j = _ := (run_append_pops hfault).1 j hj
      rw [hpopped]
      exact ⟨rfl, rfl, rfl⟩
  · intro hfault
    rw [← (savedAfter_of_hasNesting hn hfault).2]
    have hpopped : popped (r.unmatched + 1) = _ := (run_append_pops hfault).2
    rw [hpopped]
    exact ⟨rfl, rfl⟩

/-- Of three branches two stay open, the first around the one that is closed. -/
theorem open_branches_inert_between :
    let run (w : Word) := straight.2.run straight.1 w .origin
    let w : Word := [.push, .forward, .push, .forward2, .pop, .push, .forward]
    w.nesting = .ok ⟨2, 2⟩ ∧ w.withoutOpen = [.forward, .push, .forward2, .pop, .forward] ∧
      (run w.withoutOpen).segments = (run w).segments ∧
      (run (w ++ [.pop, .pop])).fault = none ∧
      (run (w ++ [.pop, .pop, .pop])).fault = some ⟨.noSavedPen, 9, 3⟩ := by
  intro run w
  have hnesting : w.nesting = .ok ⟨2, 2⟩ := by rfl
  have hfault : (run w).fault = none := Option.isNone_iff_eq_none.mp (by decide +kernel)
  have hinert := open_branches_inert straight.1 straight.2 w .origin hnesting
  have hdrawn : (run w).drawn = 3 := by decide +kernel
  obtain ⟨_, ⟨hsegments, _⟩, hpops, hmore⟩ := hinert
  have hmissing := (hmore hfault).2
  refine ⟨hnesting, by decide, hsegments, ?_, ?_⟩
  · exact ((hpops 2 le_rfl).2.2).trans hfault
  · rw [← hdrawn]
    exact hmissing

end BracketTurtle
