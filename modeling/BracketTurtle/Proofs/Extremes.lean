import BracketTurtle.Drawing.Bounds
import BracketTurtle.Proofs.Values

/-!
# Least and greatest coordinates

The bounds of a drawing are coordinates of its points. They are found by going once through the
points and keeping what is less or greater, and as numbers they are the least and the greatest
coordinates, as long as all of them are finite.
-/

namespace BracketTurtle

theorem foldl_better {α β : Type} [LinearOrder β] (key : α → β) (better : α → α → Bool)
    {P : α → Prop} (h : ∀ x y, P x → P y → (better x y = true ↔ key x < key y))
    {a : α} {as : List α}
    (ha : ∀ x ∈ a :: as, P x) :
    as.foldl (fun best x => if better x best then x else best) a ∈ a :: as ∧
      ∀ x ∈ a :: as,
        key (as.foldl (fun best x => if better x best then x else best) a) ≤ key x := by
  induction as generalizing a with
  | nil => exact ⟨List.mem_singleton_self a, List.forall_mem_singleton.mpr le_rfl⟩
  | cons b as ih =>
    obtain ⟨hPa, hPb, hPas⟩ := by simpa only [List.forall_mem_cons] using ha
    rw [List.foldl_cons]
    split_ifs with hbetter
    · obtain ⟨hmem, hleast⟩ := ih (List.forall_mem_cons.mpr ⟨hPb, hPas⟩)
      refine ⟨List.mem_cons_of_mem a hmem, List.forall_mem_cons.mpr ⟨?_, hleast⟩⟩
      exact (hleast b List.mem_cons_self).trans ((h b a hPb hPa).mp hbetter).le
    · obtain ⟨hmem, hleast⟩ := ih (List.forall_mem_cons.mpr ⟨hPa, hPas⟩)
      obtain ⟨hleasta, hleastas⟩ := List.forall_mem_cons.mp hleast
      have hab : key a ≤ key b := not_lt.mp fun hlt => hbetter ((h b a hPb hPa).mpr hlt)
      refine ⟨?_, List.forall_mem_cons.mpr ⟨hleasta, List.forall_mem_cons.mpr ⟨?_, hleastas⟩⟩⟩
      · exact (List.cons_subset_cons a (List.subset_cons_self b as)) hmem
      · exact hleasta.trans hab

namespace Coordinate

/-- The fraction that a coordinate is, if it is finite. -/
def fraction : Coordinate → ℚ
  | .pixel n => n
  | .exact x => (Number.exact x).fraction

def IsFraction (c : Coordinate) : Prop := c.value? = some (.ofRat c.fraction)

theorem fraction_eq {c : Coordinate} {q : ℚ} (h : c.value? = some (.ofRat q)) : c.fraction = q := by
  cases c with
  | pixel n => exact Number.Value.ofRat_strictMono.injective (Option.some.inj h)
  | exact x =>
    obtain ⟨negative, a, ha, rfl⟩ := Number.Exact.value?_eq_ofRat.mp h
    rw [fraction, ha]

theorem isFraction_pixel (n : ℤ) : (pixel n).IsFraction := rfl

theorem IsFraction.of_value? {c : Coordinate} {q : ℚ} (h : c.value? = some (.ofRat q)) :
    c.IsFraction := by
  rw [IsFraction, h, fraction_eq h]

theorem less_iff {c d : Coordinate} :
    c.less d = true ↔ ∃ v w, c.value? = some v ∧ d.value? = some w ∧ v < w := by
  cases c with
  | pixel m =>
    cases d with
    | pixel n => simp [less, value?, Number.Value.ofRat_strictMono.lt_iff_lt]
    | exact y => simp [less, value?, Number.Exact.compareInt_eq, compare_gt_iff_gt, Number.value?]
  | exact x =>
    cases d with
    | pixel n => simp [less, value?, Number.Exact.compareInt_eq, compare_lt_iff_lt, Number.value?]
    | exact y => rw [less, decide_eq_true_iff, Number.lt_iff, value?, value?]

theorem less_iff_fraction (c d : Coordinate) (hc : c.IsFraction) (hd : d.IsFraction) :
    c.less d = true ↔ c.fraction < d.fraction := by
  rw [less_iff, hc, hd]
  simp [Number.Value.ofRat_strictMono.lt_iff_lt]

variable {c : Coordinate} {cs : List Coordinate} (h : ∀ d ∈ c :: cs, d.IsFraction)
include h

theorem least_spec : c.least cs ∈ c :: cs ∧
    IsLeast {x | ∃ d ∈ c :: cs, d.fraction = x} (c.least cs).fraction := by
  obtain ⟨hmem, hle⟩ := foldl_better fraction less less_iff_fraction h
  refine ⟨hmem, ⟨_, hmem, rfl⟩, ?_⟩
  rintro _ ⟨d, hd, rfl⟩
  exact hle d hd

theorem greatest_spec : c.greatest cs ∈ c :: cs ∧
    IsGreatest {x | ∃ d ∈ c :: cs, d.fraction = x} (c.greatest cs).fraction := by
  obtain ⟨hmem, hle⟩ := foldl_better (OrderDual.toDual ∘ fraction) (fun d best => best.less d)
    (fun d e hd he => less_iff_fraction e d he hd) h
  refine ⟨hmem, ⟨_, hmem, rfl⟩, ?_⟩
  rintro _ ⟨d, hd, rfl⟩
  exact hle d hd

end Coordinate

def Point.place (p : Point) : ℚ × ℚ := (p.x.fraction, p.y.fraction)

/-- The least and the greatest coordinates of places. -/
structure Spans (ps : List (ℚ × ℚ)) (left top right bottom : ℚ) : Prop where
  left : IsLeast {x | ∃ p ∈ ps, p.1 = x} left
  top : IsLeast {y | ∃ p ∈ ps, p.2 = y} top
  right : IsGreatest {x | ∃ p ∈ ps, p.1 = x} right
  bottom : IsGreatest {y | ∃ p ∈ ps, p.2 = y} bottom

/-- The edges are coordinates of these points. -/
structure Bounds.IsOf (B : Bounds) (ps : List Point) : Prop where
  left : B.left ∈ ps.map Point.x
  top : B.top ∈ ps.map Point.y
  right : B.right ∈ ps.map Point.x
  bottom : B.bottom ∈ ps.map Point.y

/-- The bounds of finite points are coordinates of theirs and span their places. -/
theorem bounds_spec {lines : List (List Point)}
    (h : ∀ line ∈ lines, ∀ p ∈ line, p.x.IsFraction ∧ p.y.IsFraction) {B : Bounds}
    (hB : bounds lines = .ok B) :
    B.IsOf lines.flatten ∧ Spans (lines.flatten.map Point.place) B.left.fraction B.top.fraction
      B.right.fraction B.bottom.fraction := by
  have hflat : ∀ p ∈ lines.flatten, p.x.IsFraction ∧ p.y.IsFraction := by
    intro p hp
    obtain ⟨line, hline, hp⟩ := List.mem_flatten.mp hp
    exact h line hline p hp
  unfold bounds at hB
  split_ifs at hB
  split at hB
  · cases hB
  · rename_i q qs hqs
    rw [hqs] at hflat ⊢
    cases hB
    have hx : {x | ∃ p ∈ (q :: qs).map Point.place, p.1 = x} =
        {x | ∃ c ∈ q.x :: qs.map Point.x, c.fraction = x} := by
      ext x
      simp [Point.place]
    have hy : {y | ∃ p ∈ (q :: qs).map Point.place, p.2 = y} =
        {y | ∃ c ∈ q.y :: qs.map Point.y, c.fraction = y} := by
      ext y
      simp [Point.place]
    have hxs : ∀ c ∈ q.x :: qs.map Point.x, c.IsFraction :=
      List.forall_mem_map.mpr fun p hp => (hflat p hp).1
    have hys : ∀ c ∈ q.y :: qs.map Point.y, c.IsFraction :=
      List.forall_mem_map.mpr fun p hp => (hflat p hp).2
    obtain ⟨hleft, hleast⟩ := Coordinate.least_spec hxs
    obtain ⟨htop, hhighest⟩ := Coordinate.least_spec hys
    obtain ⟨hright, hgreatest⟩ := Coordinate.greatest_spec hxs
    obtain ⟨hbottom, hlowest⟩ := Coordinate.greatest_spec hys
    exact ⟨⟨hleft, htop, hright, hbottom⟩, hx ▸ hleast, hy ▸ hhighest, hx ▸ hgreatest,
      hy ▸ hlowest⟩

end BracketTurtle
