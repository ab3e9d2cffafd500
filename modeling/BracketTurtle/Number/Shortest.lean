import BracketTurtle.Number.Exact

/-!
# The fewest digits that read back

The reals that round to a given double form an interval around it. A decimal is in the interval
when it lies between the two halfway points to the neighbouring doubles, ends included exactly
when the mantissa is even. Grids of one, two, up to seventeen digits are tried in turn, and on
each of them the two grid points next to the value.
-/

namespace BracketTurtle
namespace Number

/-- `digits * 10 ^ exponent`. -/
structure Decimal where
  digits : Nat
  exponent : Int
deriving DecidableEq, Repr

namespace Decimal

/-- The order of a decimal and `n * 2 ^ q`, by cross-multiplication. -/
def compareBinary (d : Decimal) (n : Nat) (q : Int) : Ordering :=
  compare (d.digits * Nat.pow 10 d.exponent.toNat * Nat.pow 2 (-q).toNat)
    (n * Nat.pow 2 q.toNat * Nat.pow 10 (-d.exponent).toNat)

/-- Zeros at the end of the digits go into the exponent; `fuel` bounds their number. -/
def dropZeros : Nat → Decimal → Decimal
  | 0, d => d
  | fuel + 1, d =>
    if d.digits ≠ 0 ∧ d.digits % 10 = 0 then dropZeros fuel ⟨d.digits / 10, d.exponent + 1⟩ else d

end Decimal

namespace Magnitude

/-- At a power of two the neighbour below is half as far away as the one above. -/
def narrowBelow (a : Magnitude) : Bool :=
  a.mantissa = Nat.pow 2 52 && a.exponent > -1074

/-- In units of a quarter of the last place, the halfway point to the neighbour below. -/
def lowerEnd (a : Magnitude) : Nat :=
  if a.narrowBelow then 4 * a.mantissa - 1 else 4 * a.mantissa - 2

def upperEnd (a : Magnitude) : Nat := 4 * a.mantissa + 2

/-- The decimal rounds to this double. -/
def readsBack (a : Magnitude) (d : Decimal) : Bool :=
  let low := d.compareBinary a.lowerEnd (a.exponent - 2)
  let high := d.compareBinary a.upperEnd (a.exponent - 2)
  if a.mantissa % 2 = 0 then low.isGE && high.isLE else low.isGT && high.isLT

/-- The least `k` with `a < 10 ^ k`, for a size that is not zero. The first guess is a lower
bound taken from the binary logarithm and is at most two below the answer. -/
def leadingPlace (a : Magnitude) : Int :=
  let l : Int := a.mantissa.log2 + a.exponent
  let guess := (l * if l < 0 then 30103 else 30102) / 100000
  let above (k : Int) : Bool := (Decimal.mk 1 k).compareBinary a.mantissa a.exponent == .gt
  if above (guess + 1) then guess + 1 else if above (guess + 2) then guess + 2 else guess + 3

/-- The grid point with exponent `t` at or just below the size. -/
def gridBelow (a : Magnitude) (t : Int) : Nat :=
  a.scaledUp * Nat.pow 10 (-t).toNat / (a.scale * Nat.pow 10 t.toNat)

/-- Of the two grid points around the size, those that read back; of two, the nearer, and the
even one when both are as near. -/
def onGrid? (a : Magnitude) (t : Int) : Option Decimal :=
  let c := a.gridBelow t
  let below : Decimal := ⟨c, t⟩
  let above : Decimal := ⟨c + 1, t⟩
  match a.readsBack below && c != 0, a.readsBack above with
  | true, true =>
    match (Decimal.mk (2 * c + 1) t).compareBinary (2 * a.mantissa) a.exponent with
    | .gt => some below
    | .lt => some above
    | .eq => some (if c % 2 = 0 then below else above)
  | true, false => some below
  | false, true => some above
  | false, false => none

/-- The exact value as a decimal. -/
def exactDecimal (a : Magnitude) : Decimal :=
  if 0 ≤ a.exponent then ⟨a.scaledUp, 0⟩
  else ⟨a.mantissa * Nat.pow 5 (-a.exponent).toNat, a.exponent⟩

/-- The decimal with the fewest digits that rounds to this double. -/
def shortest (a : Magnitude) : Decimal :=
  let k := a.leadingPlace
  let found := (List.range 17).findSome? fun (n : Nat) => a.onGrid? (k - (n + 1))
  let d := found.getD a.exactDecimal
  d.dropZeros d.digits.log2

/-- What the search finds reads back, before zeros are dropped. -/
theorem readsBack_of_onGrid? {a : Magnitude} {t : Int} {d : Decimal} (h : a.onGrid? t = some d) :
    a.readsBack d = true := by
  simp only [onGrid?] at h
  split at h
  · rename_i hb ha
    have hb := ((Bool.and_eq_true _ _).mp hb).1
    split at h
    · cases h; exact hb
    · cases h; exact ha
    · split at h <;> cases h <;> assumption
  · rename_i hb _
    cases h
    exact ((Bool.and_eq_true _ _).mp hb).1
  · rename_i ha
    cases h
    exact ha
  · cases h

end Magnitude
end Number
end BracketTurtle
