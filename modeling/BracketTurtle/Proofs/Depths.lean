import BracketTurtle.Proofs.Branches
import BracketTurtle.Proofs.Faults
import BracketTurtle.Word

/-!
# Nesting and runs

The nesting of a word is counted without a pen, and a run keeps the pens themselves. The two agree:
a `pop` that closes nothing is where a run finds no saved pen, unless a draw has faulted before, and
the depth and the number of open branches are those of the stack of a run that does not fault. Both
are told by the balance of the prefixes of the word.
-/

namespace BracketTurtle

namespace Word

/-- How many more branches a word opens than it closes. -/
def balance (w : Word) : ℤ := w.count .push - w.count .pop

theorem balance_append (u v : Word) : balance (u ++ v) = balance u + balance v := by
  simp only [balance, List.count_append, Nat.cast_add]
  ring

def balances (w : Word) : Set ℤ := {b | ∃ u, u <+: w ∧ b = balance u}

theorem balances_append_singleton (u : Word) (cmd : Command) :
    balances (u ++ [cmd]) = insert (balance (u ++ [cmd])) (balances u) := by
  ext b
  simp only [balances, List.prefix_concat_iff, Set.mem_ofPred_eq, Set.mem_insert_iff, or_and_right,
    exists_or, exists_eq_left]

/-- The prefix that ends with index `p` is the first that closes more branches than it opens. -/
structure IsFirstUnmatched (w : Word) (p : ℕ) : Prop where
  lt : p < w.length
  more : balance (w.take (p + 1)) < 0
  first : ∀ j < p, 0 ≤ balance (w.take (j + 1))

namespace IsFirstUnmatched

variable {w : Word} {p : ℕ}

theorem unique {q : ℕ} (hp : w.IsFirstUnmatched p) (hq : w.IsFirstUnmatched q) : p = q := by
  rcases lt_trichotomy p q with h | h | h
  · exact absurd hp.more (not_lt.mpr (hq.first p h))
  · exact h
  · exact absurd hq.more (not_lt.mpr (hp.first q h))

theorem nonneg_take (h : w.IsFirstUnmatched p) {j : ℕ} (hj : j ≤ p) : 0 ≤ balance (w.take j) := by
  cases j with
  | zero => simp [balance]
  | succ j => exact h.first j hj

theorem append (h : w.IsFirstUnmatched p) (v : Word) : IsFirstUnmatched (w ++ v) p := by
  have htake {j : ℕ} (hj : j ≤ p) : (w ++ v).take (j + 1) = w.take (j + 1) :=
    List.take_append_of_le_length (by have := h.lt; omega)
  refine ⟨?_, ?_, ?_⟩
  · rw [List.length_append]
    exact Nat.lt_add_right _ h.lt
  · rw [htake le_rfl]
    exact h.more
  · intro j hj
    rw [htake hj.le]
    exact h.first j hj

theorem getElem?_eq_pop (h : w.IsFirstUnmatched p) :
    w[p]? = some .pop ∧ balance (w.take p) = 0 := by
  have hlt := h.lt
  have hnonneg := h.nonneg_take le_rfl
  have hmore := h.more
  rw [List.take_add_one, List.getElem?_eq_getElem hlt, Option.toList_some, balance_append] at hmore
  rw [List.getElem?_eq_getElem hlt]
  generalize w[p] = cmd at hmore
  cases cmd with
  | pop =>
    refine ⟨rfl, ?_⟩
    have hpop : balance [.pop] = -1 := rfl
    omega
  | push =>
    have hpush : balance [.push] = 1 := rfl
    omega
  | forward | forward2 | ignore | right | left =>
    exact absurd hmore (not_lt.mpr (add_nonneg hnonneg le_rfl))

end IsFirstUnmatched

/-! ## The nesting of a word -/

theorem nestingFrom_append (position : ℕ) (n : Nesting) (u v : Word) :
    nestingFrom position n (u ++ v) =
      match nestingFrom position n u with
      | .ok n' => nestingFrom (position + u.length) n' v
      | .error e => .error e := by
  induction u generalizing position n with
  | nil => rfl
  | cons cmd u ih =>
    have hposition : position + (cmd :: u).length = position + 1 + u.length := by
      rw [List.length_cons]
      omega
    rw [hposition]
    cases cmd with
    | pop =>
      rw [List.cons_append, nestingFrom, nestingFrom]
      split_ifs
      · rfl
      · exact ih _ _
    | _ => exact ih _ _

theorem nesting_append (u v : Word) :
    nesting (u ++ v) =
      match nesting u with
      | .ok n => nestingFrom u.length n v
      | .error e => .error e := by
  rw [nesting, nestingFrom_append, Nat.zero_add]
  rfl

/-- What a nesting says: the number of open branches is the balance, and the depth is the greatest
balance of a prefix. -/
structure HasNesting (w : Word) (n : Nesting) : Prop where
  unmatched : (n.unmatched : ℤ) = balance w
  depth : IsGreatest (balances w) n.depth

theorem HasNesting.unmatched_le {w : Word} {n : Nesting} (h : w.HasNesting n) :
    n.unmatched ≤ n.depth := by
  have hle := h.depth.2 ⟨w, List.prefix_refl w, h.unmatched⟩
  exact_mod_cast hle

/-- One more command: the depth is that of before or the new balance. -/
theorem HasNesting.append_singleton {w : Word} {n : Nesting} (h : w.HasNesting n) {cmd : Command}
    {n' : Nesting} (hunmatched : (n'.unmatched : ℤ) = n.unmatched + balance [cmd])
    (hdepth : n'.depth = max n'.unmatched n.depth) : HasNesting (w ++ [cmd]) n' := by
  have hbalance : (n'.unmatched : ℤ) = balance (w ++ [cmd]) := by
    rw [balance_append, ← h.unmatched, hunmatched]
  refine ⟨hbalance, ?_⟩
  rw [balances_append_singleton, ← hbalance, hdepth, Nat.cast_max]
  exact h.depth.insert _

theorem nesting_cases (w : Word) :
    (∃ n, w.nesting = .ok n ∧ w.HasNesting n ∧ ∀ j, 0 ≤ balance (w.take j)) ∨
      ∃ p, w.nesting = .error ⟨p⟩ ∧ w.IsFirstUnmatched p := by
  induction w using List.reverseRecOn with
  | nil =>
    refine .inl ⟨⟨0, 0⟩, rfl, ⟨rfl, ?_⟩, by simp [balance]⟩
    simp [balances, balance, IsGreatest, upperBounds]
  | append_singleton w cmd ih =>
    rcases ih with ⟨n, hok, hn, hnonneg⟩ | ⟨p, herror, hp⟩
    · have hnext : nesting (w ++ [cmd]) = nestingFrom w.length n [cmd] := by
        rw [nesting_append, hok]
      have hbefore {j : ℕ} (hj : j ≤ w.length) :
          balance ((w ++ [cmd]).take j) = balance (w.take j) := by
        rw [List.take_append_of_le_length hj]
      -- The only new prefix is the word itself.
      have hprefixes (hwhole : 0 ≤ (n.unmatched : ℤ) + balance [cmd]) (j : ℕ) :
          0 ≤ balance ((w ++ [cmd]).take j) := by
        rcases le_or_gt j w.length with hj | hj
        · rw [hbefore hj]
          exact hnonneg j
        · have hlength : (w ++ [cmd]).length ≤ j := by simpa using hj
          rw [List.take_of_length_le hlength, balance_append, ← hn.unmatched]
          exact hwhole
      have hle := hn.unmatched_le
      cases cmd with
      | push =>
        have hpush : balance [.push] = 1 := rfl
        refine .inl ⟨⟨max n.depth (n.unmatched + 1), n.unmatched + 1⟩, hnext, ?_,
          hprefixes (by omega)⟩
        exact hn.append_singleton (by rw [hpush]; push_cast; rfl) (max_comm _ _)
      | pop =>
        have hpop : balance [.pop] = -1 := rfl
        by_cases hzero : n.unmatched = 0
        · refine .inr ⟨w.length, ?_, ?_, ?_, ?_⟩
          · rw [hnext, nestingFrom, if_pos hzero]
          · simp
          · have hlength : (w ++ [Command.pop]).length ≤ w.length + 1 := by simp
            rw [List.take_of_length_le hlength, balance_append, ← hn.unmatched]
            omega
          · intro j hj
            rw [hbefore hj]
            exact hnonneg _
        · have hsub : n.unmatched - 1 + 1 = n.unmatched := by omega
          refine .inl ⟨⟨n.depth, n.unmatched - 1⟩, ?_, ?_, hprefixes (by omega)⟩
          · rw [hnext, nestingFrom, if_neg hzero]
            rfl
          · refine hn.append_singleton (by rw [hpop]; push_cast; omega) ?_
            have hless : n.unmatched - 1 ≤ n.depth := by omega
            exact (max_eq_right hless).symm
      | forward | forward2 | ignore | right | left =>
        refine .inl ⟨n, hnext, ?_, hprefixes (add_nonneg (Int.natCast_nonneg _) le_rfl)⟩
        exact hn.append_singleton (add_zero _).symm (max_eq_right hle).symm
    · refine .inr ⟨p, ?_, hp.append [cmd]⟩
      rw [nesting_append, herror]

theorem of_nesting_eq_ok {w : Word} {n : Nesting} (h : w.nesting = .ok n) :
    w.HasNesting n ∧ ∀ j, 0 ≤ balance (w.take j) := by
  rcases nesting_cases w with ⟨m, hok, hm⟩ | ⟨p, herror, _⟩
  · obtain rfl := Except.ok.inj (h.symm.trans hok)
    exact hm
  · cases h.symm.trans herror

theorem nesting_eq_error_iff {w : Word} {p : ℕ} :
    w.nesting = .error ⟨p⟩ ↔ w.IsFirstUnmatched p := by
  rcases nesting_cases w with ⟨n, hok, _, hnonneg⟩ | ⟨q, herror, hq⟩
  · rw [hok]
    constructor
    · intro h
      cases h
    · intro h
      exact absurd h.more (not_lt.mpr (hnonneg _))
  · rw [herror]
    constructor
    · intro h
      cases h
      exact hq
    · intro hp
      rw [hp.unique hq]

end Word

/-! ## The stack of a run -/

variable {A : Arithmetic} {c : Course} {start p : Pen} {kept : List Pen} {w : Word}
  {d : List Segment}

/-- How many pens are saved after the first `j` commands of a word. -/
def Course.savedAfter (A : Arithmetic) (c : Course) (w : Word) (start : Pen) (j : ℕ) : ℕ :=
  (c.run A (w.take j) start).unmatched

theorem Walk.length_kept (h : Walk A c start [] w d p kept) : (kept.length : ℤ) = w.balance := by
  have hdepth := h.depth
  rw [List.length_nil] at hdepth
  rw [Word.balance]
  omega

theorem savedAfter_of_walk (h : Walk A c start [] w d p kept) (j : ℕ) :
    (c.savedAfter A w start j : ℤ) = Word.balance (w.take j) := by
  rw [← List.take_append_drop j w] at h
  obtain ⟨q, left, d₁, d₂, hfront, _, rfl⟩ := h.of_append
  rw [Course.savedAfter, run_of_walk hfront]
  exact hfront.length_kept

/-- A command that draws is the first to fault, and it stands before index `p`. -/
def DrawFaultsBefore (A : Arithmetic) (c : Course) (start : Pen) (w : Word) (p : ℕ) : Prop :=
  ∃ k < p, ∃ cmd e, w[k]? = some cmd ∧ cmd.draws = true ∧ FirstFault A c start w k e

theorem FirstFault.le_of_walk {j k : ℕ} {e : Cause} (h : FirstFault A c start w k e)
    (hwalk : Walk A c start [] (w.take j) d p kept) : j ≤ k := by
  obtain ⟨d', q, saved, cmd, hfront, hcmd, he⟩ := h
  by_contra hlt
  have hsplit : w.take j = w.take k ++ cmd :: (w.take j).drop (k + 1) := by
    obtain ⟨hk, rfl⟩ := List.getElem?_eq_some_iff.mp hcmd
    have hkj : k < (w.take j).length := by
      rw [List.length_take]
      omega
    have hget : (w.take j)[k] = w[k] := List.getElem_take
    have htake : (w.take j).take k = w.take k := by
      rw [List.take_take, min_eq_left (by omega)]
    rw [← hget, ← htake, ← List.drop_eq_getElem_cons hkj, List.take_append_drop]
  rw [hsplit] at hwalk
  have hrun := run_of_fault (v := (w.take j).drop (k + 1)) hfront he
  rw [run_of_walk hwalk] at hrun
  cases congrArg Run.fault hrun

theorem Course.stroke_ne_noSavedPen : c.stroke A p ≠ .error .noSavedPen := by
  have hpoint (q : Pen) : c.point A q ≠ .error .noSavedPen := by
    unfold point
    split_ifs
    · split <;> simp
    · simp
    · simp
  unfold stroke
  split
  · rename_i e he
    rintro ⟨rfl⟩
    exact hpoint p he
  · split
    · simp
    · split
      · rename_i e he
        rintro ⟨rfl⟩
        exact hpoint _ he
      · simp

/-- A run finds no saved pen at the first `pop` that closes nothing. -/
theorem isFirstUnmatched_of_firstFault {k : ℕ} (h : FirstFault A c start w k .noSavedPen) :
    w.IsFirstUnmatched k := by
  obtain ⟨d, q, saved, cmd, hwalk, hcmd, he⟩ := h
  obtain ⟨rfl, rfl⟩ : cmd = .pop ∧ saved = [] := by
    rcases Course.act_eq_error_iff.mp he with ⟨hpop, hsaved, _⟩ | ⟨_, hstroke⟩
    · exact ⟨hpop, hsaved⟩
    · exact absurd hstroke Course.stroke_ne_noSavedPen
  refine ⟨(List.getElem?_eq_some_iff.mp hcmd).1, ?_, ?_⟩
  · have hclosed : Word.balance (w.take k) = 0 := hwalk.length_kept.symm
    have hpop : Word.balance [.pop] = -1 := rfl
    rw [List.take_add_one, hcmd, Option.toList_some, Word.balance_append, hclosed, hpop]
    norm_num
  · intro j hj
    have hsaved := savedAfter_of_walk hwalk (j + 1)
    rw [List.take_take, min_eq_left hj] at hsaved
    rw [← hsaved]
    exact Int.natCast_nonneg _

/-- Up to the first `pop` that closes nothing, only draws can fault; there, the `pop` does. -/
theorem firstFault_of_isFirstUnmatched {k : ℕ} (h : w.IsFirstUnmatched k)
    (hdraws : ¬DrawFaultsBefore A c start w k) : FirstFault A c start w k .noSavedPen := by
  rcases walk_cases A c (w.take k) start [] with ⟨d, p, saved, hwalk⟩ |
      ⟨u, cmd, v, d, p, saved, e, htake, hwalk, he⟩
  · obtain ⟨hpop, hclosed⟩ := h.getElem?_eq_pop
    have hsaved : saved = [] := by
      have hlength := hwalk.length_kept
      rw [hclosed] at hlength
      exact List.length_eq_zero_iff.mp (by exact_mod_cast hlength)
    exact ⟨d, p, saved, .pop, hwalk, hpop, Course.act_eq_error_iff.mpr (.inl ⟨rfl, hsaved, rfl⟩)⟩
  · exfalso
    have hsplit : w = u ++ cmd :: (v ++ w.drop k) := by
      rw [← List.cons_append, ← List.append_assoc, ← htake, List.take_append_drop]
    have hlt : u.length < k := by
      have hlength := congrArg List.length htake
      rw [List.length_take, List.length_append, List.length_cons] at hlength
      omega
    have hfault : FirstFault A c start w u.length e := by
      rw [hsplit]
      exact firstFault_append hwalk he
    have hcmd : w[u.length]? = some cmd := by
      rw [hsplit]
      simp
    rcases Course.act_eq_error_iff.mp he with ⟨rfl, rfl, rfl⟩ | ⟨hcmd', _⟩
    · exact absurd ((isFirstUnmatched_of_firstFault hfault).unique h) hlt.ne
    · exact hdraws ⟨u.length, hlt, cmd, e, hcmd, hcmd', hfault⟩

theorem fault_noSavedPen_iff {k : ℕ} :
    (∃ f, (c.run A w start).fault = some f ∧ f.cause = .noSavedPen ∧ f.position = k) ↔
      w.IsFirstUnmatched k ∧ ¬DrawFaultsBefore A c start w k := by
  constructor
  · rintro ⟨f, hf, hcause, rfl⟩
    have hfirst := firstFault_of_run hf
    rw [hcause] at hfirst
    refine ⟨isFirstUnmatched_of_firstFault hfirst, ?_⟩
    rintro ⟨k, hk, cmd, e, _, _, hearlier⟩
    obtain ⟨d, p, saved, _, hwalk, _, _⟩ := hfirst
    exact absurd (hearlier.le_of_walk hwalk) (not_le.mpr hk)
  · rintro ⟨hunmatched, hdraws⟩
    have hrun := (run_of_firstFault (firstFault_of_isFirstUnmatched hunmatched hdraws)).2
    exact ⟨_, congrArg Run.fault hrun, rfl, rfl⟩

theorem savedAfter_of_hasNesting {n : Nesting} (hn : w.HasNesting n)
    (hfault : (c.run A w start).fault = none) :
    IsGreatest (Set.range (c.savedAfter A w start)) n.depth ∧
      (c.run A w start).unmatched = n.unmatched := by
  obtain ⟨d, p, kept, hwalk⟩ := walk_of_run hfault
  have hsaved := savedAfter_of_walk hwalk
  refine ⟨⟨?_, ?_⟩, ?_⟩
  · obtain ⟨u, ⟨v, rfl⟩, hu⟩ := hn.depth.1
    refine ⟨u.length, ?_⟩
    have hj := hsaved u.length
    rw [List.take_left, ← hu] at hj
    exact_mod_cast hj
  · rintro _ ⟨j, rfl⟩
    have hle := hn.depth.2 ⟨w.take j, List.take_prefix j w, rfl⟩
    rw [← hsaved] at hle
    exact_mod_cast hle
  · have hlength := hwalk.length_kept
    rw [← hn.unmatched] at hlength
    rw [run_of_walk hwalk]
    exact_mod_cast hlength

/-- The nesting of a word tells where its runs find no saved pen and how many pens they save. It is
refused at the first index whose prefix closes more branches than it opens; a run ends there, at the
same position, unless a draw faults before. A word with a nesting has no run that misses a saved
pen. Its depth is the greatest balance of a prefix and the greatest number of pens that a run
without a fault ever has saved; its unmatched branches are the balance of the word, the number of
pens such a run still has saved at its end, and the number that it reports to have discarded. -/
theorem nesting_predicts_run (A : Arithmetic) (c : Course) (w : Word) (start : Pen) :
    let r := c.run A w start
    (∀ p, w.nesting = .error ⟨p⟩ ↔ w.IsFirstUnmatched p) ∧
    (∀ p, (∃ f, r.fault = some f ∧ f.cause = .noSavedPen ∧ f.position = p) ↔
      w.IsFirstUnmatched p ∧ ¬DrawFaultsBefore A c start w p) ∧
    ∀ n, w.nesting = .ok n →
      IsGreatest w.balances n.depth ∧ n.unmatched = w.balance ∧
      (∀ f, r.fault = some f → f.cause ≠ .noSavedPen) ∧
      (r.fault = none →
        IsGreatest (Set.range (c.savedAfter A w start)) n.depth ∧ r.unmatched = n.unmatched ∧
        (n.unmatched ≠ 0 →
          ⟨.debug, "run: discarding " ++ Number.naturalText n.unmatched ++ " unmatched push(es)"⟩ ∈
            r.notices c w start)) := by
  intro r
  refine ⟨fun p => Word.nesting_eq_error_iff, fun p => fault_noSavedPen_iff, ?_⟩
  intro n hok
  obtain ⟨hn, hnonneg⟩ := Word.of_nesting_eq_ok hok
  refine ⟨hn.depth, hn.unmatched, ?_, ?_⟩
  · intro f hf hcause
    obtain ⟨hunmatched, _⟩ := fault_noSavedPen_iff.mp ⟨f, hf, hcause, rfl⟩
    exact absurd hunmatched.more (not_lt.mpr (hnonneg _))
  · intro hfault
    obtain ⟨hdepth, hunmatched⟩ := savedAfter_of_hasNesting hn hfault
    refine ⟨hdepth, hunmatched, ?_⟩
    intro hne
    have hleft : r.unmatched = n.unmatched := hunmatched
    simp [Run.notices, hfault, hleft, hne]

theorem nesting_predicts_run_branches :
    let run (w : Word) := straight.2.run straight.1 w .origin
    let left : Word := [.push, .forward, .push, .pop, .push]
    let closed : Word := [.push, .forward, .pop, .pop, .forward]
    left.nesting = .ok ⟨2, 2⟩ ∧ (run left).fault = none ∧
      IsGreatest (Set.range (straight.2.savedAfter straight.1 left .origin)) 2 ∧
      (run left).unmatched = 2 ∧
      closed.IsFirstUnmatched 3 ∧ ¬DrawFaultsBefore straight.1 straight.2 .origin closed 3 := by
  intro run left closed
  have hleft := nesting_predicts_run straight.1 straight.2 left .origin
  have hclosed := nesting_predicts_run straight.1 straight.2 closed .origin
  have hnesting : left.nesting = .ok ⟨2, 2⟩ := by rfl
  have hfault : (run left).fault = none := Option.isNone_iff_eq_none.mp (by decide +kernel)
  obtain ⟨hdepth, hunmatched, _⟩ := (hleft.2.2 _ hnesting).2.2.2 hfault
  have hmissed : (run closed).fault = some ⟨.noSavedPen, 3, 1⟩ := by rfl
  obtain ⟨hfirst, hdraws⟩ := (hclosed.2.1 3).mp ⟨_, hmissed, rfl, rfl⟩
  exact ⟨hnesting, hfault, hdepth, hunmatched, hfirst, hdraws⟩

end BracketTurtle
