import BracketTurtle.Drawing.Surface
import BracketTurtle.Proofs.Values

/-!
# Plotting

The pairs of neighbours along the polylines of a plot, taken in order, are the segments that were
drawn, in the order in which they were drawn; only those without length are missing. Where a chain
is made longer its tip stands for the start of the segment, which is an equal point but may be
written with another zero, so pairs and segments are compared by something that equal points have in
common.
-/

namespace BracketTurtle

open List (consecutivePairs)

theorem consecutivePairs_append_pair {α : Type} (l : List α) (a b : α) :
    consecutivePairs (l ++ [a, b]) = consecutivePairs (l ++ [a]) ++ [(a, b)] := by
  induction l with
  | nil => rfl
  | cons x l ih =>
    obtain ⟨y, rest, hl⟩ : ∃ y rest, l ++ [a] = y :: rest :=
      List.exists_cons_of_ne_nil (by simp)
    have hpair : l ++ [a, b] = y :: (rest ++ [b]) := by
      rw [← List.cons_append, ← hl, List.append_assoc]
      rfl
    have hcons (x y : α) (rest : List α) :
        consecutivePairs (x :: y :: rest) = (x, y) :: consecutivePairs (y :: rest) := rfl
    rw [List.cons_append, List.cons_append, hpair, hl, hcons, hcons, ← hpair, ih, hl]
    rfl

theorem consecutivePairs_eq_nil {α : Type} {l : List α} (h : l.length < 2) :
    consecutivePairs l = [] := by
  rw [consecutivePairs, ← List.length_eq_zero_iff, List.length_zip, List.length_tail]
  omega

theorem consecutivePairs_map {α β : Type} (f : α → β) (l : List α) :
    consecutivePairs (l.map f) = (consecutivePairs l).map (Prod.map f f) := by
  rw [consecutivePairs, ← List.map_tail, List.zip_map]

/-- A segment without length draws nothing. -/
def Segment.isDot (s : Segment) : Bool := s.start.same s.stop

namespace Chain

theorem consecutivePairs_extend (c : Chain) (p : Point) :
    consecutivePairs (c.extend p).points =
      consecutivePairs c.points ++ if c.tip.same p then [] else [(c.tip, p)] := by
  cases h : c.tip.same p with
  | true => simp [points_extend_of_same h]
  | false =>
    rw [points_extend_of_not_same h, points, List.append_assoc]
    exact consecutivePairs_append_pair ..

theorem consecutivePairs_ofSegment (s : Segment) :
    consecutivePairs (ofSegment s).points = if s.isDot then [] else [(s.start, s.stop)] := by
  rw [ofSegment, consecutivePairs_extend]
  rfl

theorem tip_extend (c : Chain) (p : Point) : (c.extend p).tip = c.tip ∨ (c.extend p).tip = p := by
  unfold extend
  split
  · exact .inl rfl
  · exact .inr rfl

end Chain

namespace Surface

def pairs (chains : List Chain) : List (Point × Point) :=
  chains.reverse.flatMap fun c => consecutivePairs c.points

theorem pairs_cons (c : Chain) (rest : List Chain) :
    pairs (c :: rest) = pairs rest ++ consecutivePairs c.points := by
  simp [pairs]

/-- A chain of one point has no neighbours, so nothing is lost with it. -/
theorem flatMap_polylines (chains : List Chain) :
    (polylines chains).flatMap consecutivePairs = pairs chains := by
  have hlines : pairs chains = (chains.reverse.map Chain.points).flatMap consecutivePairs :=
    (List.flatMap_map ..).symm
  rw [polylines, hlines]
  induction chains.reverse.map Chain.points with
  | nil => rfl
  | cons l lines ih =>
    rw [List.filter_cons, List.flatMap_cons, ← ih]
    split
    · rw [List.flatMap_cons]
    · rename_i h
      rw [consecutivePairs_eq_nil (by simpa using h), List.nil_append]

theorem length_of_mem_polylines {chains : List Chain} {line : List Point}
    (h : line ∈ polylines chains) : 2 ≤ line.length := by
  simpa using (List.mem_filter.mp h).2

theorem pairs_plot (chains : List Chain) (s : Segment) :
    ∃ p, (p = s.start ∨ p.same s.start = true ∧ ∃ c ∈ chains, c.tip = p) ∧
      pairs (plot chains s) = pairs chains ++ if s.isDot then [] else [(p, s.stop)] := by
  cases chains with
  | nil => exact ⟨s.start, .inl rfl, by rw [plot, pairs_cons, Chain.consecutivePairs_ofSegment]⟩
  | cons c rest =>
    rw [plot]
    split
    · rename_i h
      refine ⟨c.tip, .inr ⟨h, c, List.mem_cons_self, rfl⟩, ?_⟩
      rw [pairs_cons, pairs_cons, Chain.consecutivePairs_extend, Point.same_congr_left h,
        List.append_assoc]
      rfl
    · exact ⟨s.start, .inl rfl, by rw [pairs_cons, Chain.consecutivePairs_ofSegment]⟩

theorem tip_of_mem_plot {chains : List Chain} {s : Segment} {c : Chain} (h : c ∈ plot chains s) :
    c ∈ chains ∨ (∃ d ∈ chains, c.tip = d.tip) ∨ c.tip = s.start ∨ c.tip = s.stop := by
  have hsegment : (Chain.ofSegment s).tip = s.start ∨ (Chain.ofSegment s).tip = s.stop :=
    Chain.tip_extend ⟨s.start, []⟩ s.stop
  cases chains with
  | nil =>
    obtain rfl := List.mem_singleton.mp h
    exact .inr (.inr hsegment)
  | cons d rest =>
    rw [plot] at h
    split at h
    · rcases List.mem_cons.mp h with rfl | h
      · rcases Chain.tip_extend d s.stop with htip | htip
        · exact .inr (.inl ⟨d, List.mem_cons_self, htip⟩)
        · exact .inr (.inr (.inr htip))
      · exact .inl (List.mem_cons_of_mem d h)
    · rcases List.mem_cons.mp h with rfl | h
      · exact .inr (.inr hsegment)
      · exact .inl h

section

variable {β : Type} {f : Point → β} {P : Point → Prop}
  (hf : ∀ p q, P p → P q → p.same q = true → f p = f q)
include hf

/-- Where equal points look alike, plotting more segments adds their pairs. -/
theorem map_pairs_foldl {segments : List Segment} {chains : List Chain}
    (hs : ∀ s ∈ segments, P s.start ∧ P s.stop) (hc : ∀ c ∈ chains, P c.tip) :
    (pairs (segments.foldl plot chains)).map (Prod.map f f) =
      (pairs chains).map (Prod.map f f) ++
        (segments.filter fun s => !s.isDot).map fun s => (f s.start, f s.stop) := by
  induction segments generalizing chains with
  | nil => simp
  | cons s segments ih =>
    obtain ⟨hstart, hstop⟩ := hs s List.mem_cons_self
    have htips : ∀ c ∈ plot chains s, P c.tip := by
      intro c hmem
      rcases tip_of_mem_plot hmem with hold | ⟨d, hd, htip⟩ | htip | htip
      · exact hc c hold
      · exact htip ▸ hc d hd
      · exact htip ▸ hstart
      · exact htip ▸ hstop
    obtain ⟨p, hp, hpairs⟩ := pairs_plot chains s
    have hfp : f p = f s.start := by
      rcases hp with rfl | ⟨hsame, c, hmem, rfl⟩
      · rfl
      · exact hf _ _ (hc c hmem) hstart hsame
    have hrest := List.forall_mem_of_forall_mem_cons hs
    rw [List.foldl_cons, ih hrest htips, hpairs]
    cases hdot : s.isDot with
    | true => simp [hdot]
    | false => simp [hdot, hfp]

/-- The neighbours along the polylines of a plot are the segments that have a length, in order. -/
theorem map_consecutivePairs_polylines {segments : List Segment}
    (hs : ∀ s ∈ segments, P s.start ∧ P s.stop) :
    ((polylines (segments.foldl plot [])).flatMap consecutivePairs).map (Prod.map f f) =
      (segments.filter fun s => !s.isDot).map fun s => (f s.start, f s.stop) := by
  rw [flatMap_polylines, map_pairs_foldl hf hs fun c hc => by cases hc]
  rfl

end

theorem polylines_eq_nil_iff {segments : List Segment} :
    polylines (segments.foldl plot []) = [] ↔ ∀ s ∈ segments, s.isDot = true := by
  have hpairs : ((polylines (segments.foldl plot [])).flatMap consecutivePairs).map
        (Prod.map (fun _ => ()) fun _ => ()) =
      (segments.filter fun s => !s.isDot).map fun _ => ((), ()) :=
    map_consecutivePairs_polylines (P := fun _ => True) (fun _ _ _ _ _ => rfl)
      fun _ _ => ⟨trivial, trivial⟩
  constructor
  · intro hnil s hs
    rw [hnil] at hpairs
    have hfilter := List.map_eq_nil_iff.mp hpairs.symm
    simpa using List.filter_eq_nil_iff.mp hfilter s hs
  · intro hdots
    have hfilter : (segments.filter fun s => !s.isDot) = [] := by
      simpa [List.filter_eq_nil_iff] using hdots
    rw [hfilter, List.map_nil, List.map_eq_nil_iff, List.flatMap_eq_nil_iff] at hpairs
    apply List.eq_nil_iff_forall_not_mem.mpr
    intro line hline
    have hlength := length_of_mem_polylines hline
    have hzip := congrArg List.length (hpairs line hline)
    rw [consecutivePairs, List.length_zip, List.length_tail, List.length_nil] at hzip
    omega

/-! ## The points of polylines -/

variable {P : Point → Prop}

theorem forall_mem_extend {c : Chain} {p : Point} (hc : ∀ a ∈ c.points, P a) (hp : P p) :
    ∀ a ∈ (c.extend p).points, P a := by
  cases h : c.tip.same p with
  | true => rwa [Chain.points_extend_of_same h]
  | false =>
    rw [Chain.points_extend_of_not_same h, List.forall_mem_append, List.forall_mem_singleton]
    exact ⟨hc, hp⟩

theorem forall_mem_plot {chains : List Chain} {s : Segment} (hs : P s.start ∧ P s.stop)
    (hchains : ∀ c ∈ chains, ∀ a ∈ c.points, P a) : ∀ c ∈ plot chains s, ∀ a ∈ c.points, P a := by
  have hsegment : ∀ a ∈ (Chain.ofSegment s).points, P a := by
    apply forall_mem_extend _ hs.2
    simpa [Chain.points] using hs.1
  cases chains with
  | nil => exact List.forall_mem_singleton.mpr hsegment
  | cons c rest =>
    obtain ⟨hc, hrest⟩ := List.forall_mem_cons.mp hchains
    rw [plot]
    split_ifs
    · exact List.forall_mem_cons.mpr ⟨forall_mem_extend hc hs.2, hrest⟩
    · exact List.forall_mem_cons.mpr ⟨hsegment, hchains⟩

theorem forall_mem_polylines {segments : List Segment}
    (h : ∀ s ∈ segments, P s.start ∧ P s.stop) :
    ∀ line ∈ polylines (segments.foldl plot []), ∀ a ∈ line, P a := by
  have hchains : ∀ c ∈ segments.foldl plot [], ∀ a ∈ c.points, P a := by
    induction segments using List.reverseRecOn with
    | nil => exact List.forall_mem_nil _
    | append_singleton segments s ih =>
      rw [List.forall_mem_append, List.forall_mem_singleton] at h
      rw [List.foldl_append]
      exact forall_mem_plot h.2 (ih h.1)
  intro line hline
  obtain ⟨c, hc, rfl⟩ := List.mem_map.mp (List.mem_filter.mp hline).1
  exact hchains c (List.mem_reverse.mp hc)

end Surface
end BracketTurtle
