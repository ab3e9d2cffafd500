/-!
# Doubles and their exact values

A finite double is a whole number times a power of two. The view `exact` gives the two numbers;
floors, comparisons with integers and all decimal text are computed from it in integer arithmetic,
without a further rounding. In the other direction an integer or a decimal goes to the nearest
double, in one rounding. Exponents of ten that decide the answer alone are settled before any power
is formed, so the length of an exponent does not cost time.
-/

namespace BracketTurtle

namespace Number

/-- The size of a finite double, `mantissa * 2 ^ exponent`; zero has mantissa zero. -/
structure Magnitude where
  mantissa : Nat
  exponent : Int
deriving DecidableEq, Repr

/-- What a double stands for. Both zeros are finite and keep their sign. -/
inductive Exact where
  | notANumber
  | infinite (negative : Bool)
  | finite (negative : Bool) (size : Magnitude)
deriving DecidableEq, Repr

def isNegative : Float.Model.UnpackedFloat.Sign → Bool
  | .negative => true
  | .positive => false

def exact (x : Float) : Exact :=
  match x.toModel.unpack with
  | .notANumber => .notANumber
  | .infinity s => .infinite (isNegative s)
  | .zero s => .finite (isNegative s) ⟨0, 0⟩
  | .finite s m e _ => .finite (isNegative s) ⟨m, e⟩

namespace Magnitude

/-- `size = scaledUp / scale`, both whole. -/
def scaledUp (a : Magnitude) : Nat := a.mantissa * Nat.pow 2 a.exponent.toNat

def scale (a : Magnitude) : Nat := Nat.pow 2 (-a.exponent).toNat

theorem scale_pos (a : Magnitude) : 0 < a.scale := Nat.two_pow_pos _

/-- The numerator over `scale`, with its sign. -/
def signed (negative : Bool) (a : Magnitude) : Int :=
  if negative then -(a.scaledUp : Int) else a.scaledUp

end Magnitude

/-- The greatest integer not above the value; `none` for what is not finite. -/
def Exact.floor? : Exact → Option Int
  | .finite negative a => some (a.signed negative / a.scale)
  | _ => none

/-- The order of the value and an integer; `none` for what is not a number. -/
def Exact.compareInt : Exact → Int → Option Ordering
  | .notANumber, _ => none
  | .infinite negative, _ => some (if negative then .lt else .gt)
  | .finite negative a, n => some (compare (a.signed negative) (n * a.scale))

/-- The double nearest to an integer; `none` beyond the range of doubles. -/
def nearest? (n : Int) : Option Float :=
  let x := Float.ofInt n
  if x.isFinite then some x else none

/-- The double nearest to `digits * 10 ^ exponent`, negated when `negative`. -/
def ofDecimal (negative : Bool) (digits : Nat) (exponent : Int) : Float :=
  let top := exponent + (digits.log2 / 3 : Nat)
  let size : Float :=
    if digits = 0 ∨ top < -400 then 0.0
    else if 400 < exponent then 1.0 / 0.0
    else Float.ofScientific digits (exponent < 0) exponent.natAbs
  if negative then -size else size

end Number

end BracketTurtle
