/-!
# Sources of random numbers

A source turns its state into numbers: doubles from zero up to one, and indices below a bound. The
source at hand is a generator of 32-bit words. Its state is a table of 624 words that is renewed as
a whole when all of them have been given out; a seed is spread over the table from its 32-bit
digits, the sign left out.
-/

namespace BracketTurtle

structure Source (State : Type) where
  unit : State → Float × State
  /-- An index below the bound, for bounds above zero. -/
  index : Nat → State → Nat × State

structure Twister where
  table : Array UInt32
  /-- How many words of the table have been given out. -/
  used : Nat

namespace Twister

def size : Nat := 624

/-- The distance of the word that is mixed in when the table is renewed. -/
def reach : Nat := 397

def word (table : Array UInt32) (i : Nat) : UInt32 := table.getD i 0

def mix (w : UInt32) : UInt32 := w ^^^ (w >>> 30)

/-- The table that grows from one word. -/
def spread (seed : UInt32) : Array UInt32 :=
  (List.range (size - 1)).foldl
    (fun table i => table.push (1812433253 * mix (word table i) + (i + 1).toUInt32)) #[seed]

/-- The digits of a number in base `2 ^ 32`, lowest first; zero has one digit. -/
def seedDigits (n : Nat) : Array UInt32 :=
  (List.range (n.log2 / 32 + 1)).toArray.map fun i => (n >>> (32 * i)).toUInt32

/-- Counts through the places of the table after the first, and copies the last word to the
first place when it comes round. -/
def nextPlace (table : Array UInt32) (i : Nat) : Array UInt32 × Nat :=
  if size ≤ i + 1 then (table.setIfInBounds 0 (word table (size - 1)), 1) else (table, i + 1)

def stirKey (key : Array UInt32) : Nat → Array UInt32 → Nat → Nat → Array UInt32 × Nat
  | 0, table, i, _ => (table, i)
  | rounds + 1, table, i, j =>
    let w := (word table i ^^^ (mix (word table (i - 1)) * 1664525)) + word key j + j.toUInt32
    let (table, i) := nextPlace (table.setIfInBounds i w) i
    stirKey key rounds table i (if key.size ≤ j + 1 then 0 else j + 1)

def stir : Nat → Array UInt32 → Nat → Array UInt32
  | 0, table, _ => table
  | rounds + 1, table, i =>
    let w := (word table i ^^^ (mix (word table (i - 1)) * 1566083941)) - i.toUInt32
    let (table, i) := nextPlace (table.setIfInBounds i w) i
    stir rounds table i

def ofSeed (seed : Int) : Twister :=
  let key := seedDigits seed.natAbs
  let (table, i) := stirKey key (max size key.size) (spread 19650218) 1 0
  ⟨(stir (size - 1) table i).setIfInBounds 0 0x80000000, size⟩

def renew (table : Array UInt32) : Array UInt32 :=
  (List.range size).foldl
    (fun table i =>
      let y := (word table i &&& 0x80000000) ||| (word table ((i + 1) % size) &&& 0x7fffffff)
      let w := word table ((i + reach) % size) ^^^ (y >>> 1)
      table.setIfInBounds i (if y &&& 1 = 0 then w else w ^^^ 0x9908b0df))
    table

def temper (y : UInt32) : UInt32 :=
  let y := y ^^^ (y >>> 11)
  let y := y ^^^ ((y <<< 7) &&& 0x9d2c5680)
  let y := y ^^^ ((y <<< 15) &&& 0xefc60000)
  y ^^^ (y >>> 18)

def next (g : Twister) : UInt32 × Twister :=
  let g : Twister := if size ≤ g.used then ⟨renew g.table, 0⟩ else g
  (temper (word g.table g.used), ⟨g.table, g.used + 1⟩)

/-- A multiple of `2 ^ -53` from 53 bits of two words. -/
def unit (g : Twister) : Float × Twister :=
  let (a, g) := g.next
  let (b, g) := g.next
  (Float.ofNat ((a >>> 5).toNat * 67108864 + (b >>> 6).toNat) / 9007199254740992, g)

/-- How often a word may be thrown away in the search for an index. Every other word is below the
bound, so the search ends far sooner. -/
def patience : Nat := 10000

/-- The top bits of the first word that is below the bound. -/
def indexWithin (bound : Nat) : Nat → Twister → Nat × Twister
  | 0, g => (0, g)
  | tries + 1, g =>
    let (w, g) := g.next
    let r := w.toNat >>> (32 - (bound.log2 + 1))
    if r < bound then (r, g) else indexWithin bound tries g

def index (bound : Nat) (g : Twister) : Nat × Twister := indexWithin bound patience g

def source : Source Twister := ⟨unit, index⟩

theorem indexWithin_lt {bound : Nat} (h : 0 < bound) (tries : Nat) (g : Twister) :
    (indexWithin bound tries g).1 < bound := by
  induction tries generalizing g with
  | zero => exact h
  | succ n ih =>
    simp only [indexWithin]
    split
    · assumption
    · exact ih _

end Twister

end BracketTurtle
