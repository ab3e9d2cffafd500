import BracketTurtle.Text.Lines

/-!
# Digits of whole numbers

A whole number is written in decimal digits of ASCII. It is read from digits of any script: every
script that has decimal digits has ten of them in a row, and the table lists the zeros. An integer
may stand between blanks, may have a sign, and may have single underscores between its digits, of
which there are no more than a fixed number, zeros in front included.
-/

namespace BracketTurtle

namespace Number

/-- The decimal digits of a natural number. -/
def digitsText (n : Nat) : List Char := Nat.toDigits 10 n

/-- Decimal digits filled with zeros on the left up to `width`. -/
def paddedDigits (width n : Nat) : List Char :=
  let ds := digitsText n
  List.replicate (width - ds.length) '0' ++ ds

def integerChars (n : Int) : List Char :=
  (if n < 0 then ['-'] else []) ++ digitsText n.natAbs

def integerText (n : Int) : String := String.ofList (integerChars n)

def naturalText (n : Nat) : String := String.ofList (digitsText n)

def digitValue (c : Char) : Nat := c.toNat - '0'.toNat

/-- The value of a list of decimal digits. -/
def digitsValue (cs : List Char) : Nat := cs.foldl (fun n c => 10 * n + digitValue c) 0

/-- The digits a text begins with, and what follows them. -/
def takeDigits (cs : List Char) : List Char × List Char :=
  (cs.takeWhile Char.isDigit, cs.dropWhile Char.isDigit)

theorem takeDigits_append (cs : List Char) : (takeDigits cs).1 ++ (takeDigits cs).2 = cs :=
  List.takeWhile_append_dropWhile

end Number

namespace Text

def zeros : List Nat :=
  [
    0x30, 0x660, 0x6f0, 0x7c0, 0x966, 0x9e6, 0xa66, 0xae6, 0xb66, 0xbe6, 0xc66, 0xce6, 0xd66,
    0xde6, 0xe50, 0xed0, 0xf20, 0x1040, 0x1090, 0x17e0, 0x1810, 0x1946, 0x19d0, 0x1a80, 0x1a90,
    0x1b50, 0x1bb0, 0x1c40, 0x1c50, 0xa620, 0xa8d0, 0xa900, 0xa9d0, 0xa9f0, 0xaa50, 0xabf0,
    0xff10, 0x104a0, 0x10d30, 0x11066, 0x110f0, 0x11136, 0x111d0, 0x112f0, 0x11450, 0x114d0,
    0x11650, 0x116c0, 0x11730, 0x118e0, 0x11950, 0x11c50, 0x11d50, 0x11da0, 0x16a60, 0x16ac0,
    0x16b50, 0x1d7ce, 0x1d7d8, 0x1d7e2, 0x1d7ec, 0x1d7f6, 0x1e140, 0x1e2f0, 0x1e950, 0x1fbf0
  ]

/-- The value of a decimal digit of any script. -/
def decimalDigit? (c : Char) : Option Nat :=
  (zeros.find? fun z => z ≤ c.toNat && c.toNat ≤ z + 9).map (c.toNat - ·)

/-- Digits with single underscores between them; `value` is that of the digits read so far. -/
def digitsWithBreaks? (value : Nat) : List Char → Option Nat
  | [] => some value
  | '_' :: c :: cs => (decimalDigit? c).bind fun d => digitsWithBreaks? (10 * value + d) cs
  | c :: cs => (decimalDigit? c).bind fun d => digitsWithBreaks? (10 * value + d) cs

def natural? : List Char → Option Nat
  | [] => none
  | c :: cs => (decimalDigit? c).bind fun d => digitsWithBreaks? d cs

/-- The blanks allowed around an integer: those of text, less the four separators of ASCII. -/
def isIntegerBlank (c : Char) : Bool :=
  isBlank c && !(0x1c ≤ c.toNat && c.toNat ≤ 0x1f)

/-- Integers with more digits than this are not read. -/
def digitLimit : Nat := 4300

/-- Digits up to the limit; the underscores do not count. -/
def limited? (cs : List Char) : Option Nat :=
  if digitLimit < cs.countP (· ≠ '_') then none else natural? cs

def integer? (s : String) : Option Int :=
  match trimBy isIntegerBlank s.toList with
  | '+' :: cs => (limited? cs).map Int.ofNat
  | '-' :: cs => (limited? cs).map fun n => -Int.ofNat n
  | cs => (limited? cs).map Int.ofNat

end Text

end BracketTurtle
