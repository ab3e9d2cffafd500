import BracketTurtle.Proofs.Agreement
import BracketTurtle.Proofs.Extremes
import BracketTurtle.Proofs.ModestRuns

/-!
# Drawings on the pixel grid

The points of polylines are ends of what was drawn. Small pixels have small pixels for their bounds,
and with a margin around them these have room: there the sums and differences of doubles are exact
enough to keep their signs. So a modest run on the pixel grid can be drawn.
-/

namespace BracketTurtle

/-! ## Bounds of pixels -/

def Coordinate.OrderedWithin (c d : Coordinate) (b : ℕ) : Prop :=
  ∃ m n : ℤ, c = .pixel m ∧ d = .pixel n ∧ |m| ≤ b ∧ |n| ≤ b ∧ m ≤ n

theorem Coordinate.PixelWithin.isFraction {c : Coordinate} {b : ℕ} (h : c.PixelWithin b) :
    c.IsFraction := by
  obtain ⟨n, rfl, _⟩ := h
  exact isFraction_pixel n

theorem Coordinate.PixelWithin.ordered {c d : Coordinate} {b : ℕ} (hc : c.PixelWithin b)
    (hd : d.PixelWithin b) (h : c.fraction ≤ d.fraction) : c.OrderedWithin d b := by
  obtain ⟨m, rfl, hm⟩ := hc
  obtain ⟨n, rfl, hn⟩ := hd
  exact ⟨m, n, rfl, rfl, hm, hn, Int.cast_le.mp h⟩

theorem bounds_of_pixels {lines : List (List Point)} {b : ℕ}
    (h : ∀ line ∈ lines, ∀ a ∈ line, a.PixelsWithin b) {B : Bounds} (hB : bounds lines = .ok B) :
    B.left.OrderedWithin B.right b ∧ B.top.OrderedWithin B.bottom b := by
  obtain ⟨hof, hspans⟩ := bounds_spec (fun line hline a ha =>
    ⟨(h line hline a ha).1.isFraction, (h line hline a ha).2.isFraction⟩) hB
  have hflat : ∀ a ∈ lines.flatten, a.PixelsWithin b := by
    intro a ha
    obtain ⟨line, hline, ha⟩ := List.mem_flatten.mp ha
    exact h line hline a ha
  have hx : ∀ c ∈ lines.flatten.map Point.x, c.PixelWithin b :=
    List.forall_mem_map.mpr fun a ha => (hflat a ha).1
  have hy : ∀ c ∈ lines.flatten.map Point.y, c.PixelWithin b :=
    List.forall_mem_map.mpr fun a ha => (hflat a ha).2
  exact ⟨(hx _ hof.left).ordered (hx _ hof.right) (hspans.left.2 hspans.right.1),
    (hy _ hof.top).ordered (hy _ hof.bottom) (hspans.top.2 hspans.bottom.1)⟩

/-! ## Room for a frame -/

open Number (IsBetween)

theorem Coordinate.OrderedWithin.room {c d : Coordinate} {b : ℕ} (h : c.OrderedWithin d b)
    {margin : Float} {k : ℕ} (hmargin : IsBetween margin k k) (hk : 0 < k)
    (hsmall : 2 * (b + k) < 2 ^ 53) : 0 < d.toFloat + margin - (c.toFloat - margin) := by
  obtain ⟨m, n, rfl, rfl, hm, hn, hle⟩ := h
  obtain ⟨hmlow, hmhigh⟩ := abs_le.mp hm
  obtain ⟨hnlow, hnhigh⟩ := abs_le.mp hn
  have hleft : IsBetween (Float.ofInt m) m m :=
    Number.isBetween_ofInt (abs_lt.mpr ⟨by omega, by omega⟩)
  have hright : IsBetween (Float.ofInt n) n n :=
    Number.isBetween_ofInt (abs_lt.mpr ⟨by omega, by omega⟩)
  have hinner := hleft.sub hmargin (abs_lt.mpr ⟨by omega, by omega⟩)
    (abs_lt.mpr ⟨by omega, by omega⟩)
  have houter := hright.add hmargin (abs_lt.mpr ⟨by omega, by omega⟩)
    (abs_lt.mpr ⟨by omega, by omega⟩)
  exact (houter.sub hinner (abs_lt.mpr ⟨by omega, by omega⟩)
    (abs_lt.mpr ⟨by omega, by omega⟩)).pos (by omega)

namespace Program

/-- A modest run on the pixel grid that draws in steps of five or more can be drawn with any whole
margin. -/
theorem isDrawable_of_isModest {cos sin : Float → Float} (hcircular : IsCircular cos sin)
    {c : Config} {s k : ℕ} (hmodest : IsModest c.course c.start c.word s 0)
    (hsnap : c.course.snap = true) (hfive : 5 ≤ s) (hdraws : c.word.any Command.draws = true) {n :
      Nesting}
    (hnesting : c.word.nesting = .ok n) (hmargin : IsBetween c.svg.margin k k) (hk : 0 < k)
    (hsmall : 2 * (c.word.countP Command.draws * s + 1 + k) < 2 ^ 53) :
    IsDrawable (.rounded cos sin) c := by
  obtain ⟨d, p, kept, hwalk⟩ := walk_of_run (hmodest.fault_eq_none hcircular hnesting)
  have hpixels : ∀ t ∈ (c.course.run (.rounded cos sin) c.word c.start).segments,
      t.start.PixelsWithin (c.word.countP Command.draws * s + 1) ∧
        t.stop.PixelsWithin (c.word.countP Command.draws * s + 1) := by
    rw [segments_of_walk hwalk]
    intro t ht
    have hwithin := hmodest.pixelsWithin hcircular hsnap hwalk ht
    rwa [Nat.zero_add] at hwithin
  constructor
  · rw [HasLength, segments_of_walk hwalk]
    exact hmodest.exists_long hcircular hsnap hfive hdraws hwalk
  · intro B hB
    obtain ⟨hx, hy⟩ := bounds_of_pixels (Surface.forall_mem_polylines hpixels) hB
    exact ⟨hx.room hmargin hk hsmall, hy.room hmargin hk hsmall⟩

end Program
end BracketTurtle
