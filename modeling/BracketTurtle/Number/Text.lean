import BracketTurtle.Number.Places
import BracketTurtle.Number.Shortest

/-!
# Text that identifies a double

The shortest digits are laid out positionally while the leading digit has an exponent from -4
to 15, and with a signed exponent of two digits or more beyond. The text always shows that the
number is a double: it has a point or an exponent, and zeros keep their sign.
-/

namespace BracketTurtle
namespace Number

/-- Positional text of `digits * 10 ^ -drop`-like forms: the point stands after `whole` digits. -/
def pointAfter (whole : Nat) (ds : List Char) : List Char :=
  let front := ds.take whole ++ List.replicate (whole - ds.length) '0'
  let back := ds.drop whole
  front ++ '.' :: if back.isEmpty then ['0'] else back

/-- The exponent with its sign, in at least two digits. -/
def exponentText (e : Int) : List Char :=
  (if e < 0 then '-' else '+') :: paddedDigits 2 e.natAbs

namespace Decimal

/-- The exponent of the first digit. -/
def leadingExponent (d : Decimal) : Int := (digitsText d.digits).length + d.exponent - 1

def layout (d : Decimal) : List Char :=
  let ds := digitsText d.digits
  let e := d.leadingExponent
  if e < -4 ∨ 16 ≤ e then
    ds.take 1 ++ (if ds.length ≤ 1 then [] else '.' :: ds.drop 1) ++ 'e' :: exponentText e
  else if e < 0 then
    ['0', '.'] ++ List.replicate (-e - 1).toNat '0' ++ ds
  else
    pointAfter (e + 1).toNat ds

end Decimal

/-- Text of a finite size. -/
def Magnitude.layout (a : Magnitude) : List Char :=
  if a.mantissa = 0 then ['0', '.', '0'] else a.shortest.layout

def Exact.chars : Exact → List Char
  | .notANumber => ['n', 'a', 'n']
  | .infinite negative => (if negative then ['-'] else []) ++ ['i', 'n', 'f']
  | .finite negative a => (if negative then ['-'] else []) ++ a.layout

/-- The text of a double in messages and reports. -/
def text (x : Float) : String := String.ofList (exact x).chars

end Number
end BracketTurtle
