/-!
# Blanks and lines

The blanks are the white space of Unicode and the four separators of ASCII. `trim` takes them
off both ends of a text and leaves those inside. All line ends of a text file are read as line
feeds, and every line of an output ends with one. A place in a text is given by its line and column,
both counted from one.
-/

namespace BracketTurtle
namespace Text

def isBlank (c : Char) : Bool :=
  let n := c.toNat
  (0x09 ≤ n && n ≤ 0x0d) || (0x1c ≤ n && n ≤ 0x20) || n = 0x85 || n = 0xa0 || n = 0x1680 ||
    (0x2000 ≤ n && n ≤ 0x200a) || n = 0x2028 || n = 0x2029 || n = 0x202f || n = 0x205f || n = 0x3000

/-- What is left without the characters of `p` at the end. -/
def trimRightBy (p : Char → Bool) (cs : List Char) : List Char :=
  (cs.reverse.dropWhile p).reverse

/-- What is left without the characters of `p` at both ends. -/
def trimBy (p : Char → Bool) (cs : List Char) : List Char :=
  trimRightBy p (cs.dropWhile p)

def trim (cs : List Char) : List Char := trimBy isBlank cs

/-- How many blanks stand in front. -/
def leadingBlanks (cs : List Char) : Nat := (cs.takeWhile isBlank).length

/-! ## Lines -/

/-- A carriage return, alone or before a line feed, becomes a line feed. -/
def unifyLineEnds : List Char → List Char
  | [] => []
  | '\r' :: '\n' :: cs => '\n' :: unifyLineEnds cs
  | c :: cs => (if c = '\r' then '\n' else c) :: unifyLineEnds cs

theorem unifyLineEnds_eq_self {cs : List Char} (h : '\r' ∉ cs) : unifyLineEnds cs = cs := by
  fun_induction unifyLineEnds cs with
  | case1 => rfl
  | case2 cs ih => simp at h
  | case3 c cs _ ih =>
    simp only [List.mem_cons, not_or] at h
    simp [ih h.2, Ne.symm h.1]

/-- The text of lines, each with its end. -/
def ofLines (lines : List String) : String := String.join (lines.map (· ++ "\n"))

/-- A place between two characters. -/
structure Place where
  line : Nat
  column : Nat
deriving DecidableEq, Repr

def Place.start : Place := ⟨1, 1⟩

def Place.next (p : Place) (c : Char) : Place :=
  if c = '\n' then ⟨p.line + 1, 1⟩ else ⟨p.line, p.column + 1⟩

/-- The place after the given characters from the start of a text. -/
def placeAfter (cs : List Char) : Place := cs.foldl Place.next .start

end Text
end BracketTurtle
