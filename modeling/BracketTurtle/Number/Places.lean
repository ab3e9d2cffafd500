import BracketTurtle.Number.Digits
import BracketTurtle.Number.Exact

/-!
# Decimal text with a limited number of places

The exact value is rounded to a whole number of units of `10 ^ -places`, a half going to the even
neighbour. All places are written; then the zeros at the end of the fraction are taken off the text,
and so is the sign of a zero.
-/

namespace BracketTurtle

namespace Number

def roundDiv (num den : Nat) : Nat :=
  let q := num / den
  match compare (2 * (num % den)) den with
  | .lt => q
  | .gt => q + 1
  | .eq => if q % 2 = 0 then q else q + 1

theorem roundDiv_near (num den : Nat) (h : 0 < den) :
    2 * (roundDiv num den * den) ≤ 2 * num + den ∧
      2 * num ≤ 2 * (roundDiv num den * den) + den := by
  have e : den * (num / den) + num % den = num := Nat.div_add_mod num den
  have l : num % den < den := Nat.mod_lt _ h
  have hq : (num / den + 1) * den = den * (num / den) + den := by
    rw [Nat.add_mul, Nat.mul_comm, Nat.one_mul]
  have hq0 : num / den * den = den * (num / den) := Nat.mul_comm ..
  simp only [roundDiv]
  split
  · rename_i hc
    rw [Nat.compare_eq_lt] at hc
    omega
  · rename_i hc
    rw [Nat.compare_eq_gt] at hc
    omega
  · rename_i hc
    rw [Nat.compare_eq_eq] at hc
    split <;> omega

theorem roundDiv_even_of_half {num den : Nat} (h : 2 * (num % den) = den) :
    roundDiv num den % 2 = 0 := by
  have hc : compare (2 * (num % den)) den = .eq := Nat.compare_eq_eq.mpr h
  unfold roundDiv
  rw [hc]
  simp only
  split <;> omega

def dropZerosRight (cs : List Char) : List Char := Text.trimRightBy (· = '0') cs

/-- The size in units of `10 ^ -places`. -/
def Magnitude.units (places : Nat) (a : Magnitude) : Nat :=
  roundDiv (a.scaledUp * Nat.pow 10 places) a.scale

/-- `units * 10 ^ -places`, with all places after the point. -/
def fixedDigits (places units : Nat) : List Char :=
  digitsText (units / Nat.pow 10 places) ++
    if places = 0 then [] else '.' :: paddedDigits places (units % Nat.pow 10 places)

/-- Text with all places after the point. What is rounded to zero keeps its sign. -/
def Exact.fixed (places : Nat) : Exact → List Char
  | .notANumber => ['n', 'a', 'n']
  | .infinite negative => (if negative then ['-'] else []) ++ ['i', 'n', 'f']
  | .finite negative a => (if negative then ['-'] else []) ++ fixedDigits places (a.units places)

/-- What is left without the zeros at the end of a fraction, and without the point if nothing comes
after it. A zero is left without its sign. -/
def strip (cs : List Char) : List Char :=
  let cs := if '.' ∈ cs then Text.trimRightBy (· = '.') (dropZerosRight cs) else cs
  if cs = [] ∨ cs = ['-', '0'] then ['0'] else cs

def placesChars (places : Nat) (x : Float) : List Char :=
  let x := if x == 0 then 0 else x
  strip ((exact x).fixed places)

/-- Text of a double with at most `places` digits after the point. -/
def placesText (places : Nat) (x : Float) : String := String.ofList (placesChars places x)

end Number

end BracketTurtle
