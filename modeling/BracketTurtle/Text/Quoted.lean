import BracketTurtle.Text.Printable

/-!
# Quoted text

Text in messages stands between single quotes, or between double quotes when it holds a single
quote and no double one. The quote in use and the backslash are escaped with a backslash, line
feed, carriage return and tab by letter, and what is not printable by its code in lower-case
hexadecimal digits.
-/

namespace BracketTurtle
namespace Text

/-- Hexadecimal digits of a number, filled with zeros up to `width`. -/
def hex (width n : Nat) : List Char :=
  let ds := Nat.toDigits 16 n
  List.replicate (width - ds.length) '0' ++ ds

/-- The escape for a character that is not printable. -/
def codeEscape (c : Char) : List Char :=
  let n := c.toNat
  if n < 0x100 then '\\' :: 'x' :: hex 2 n
  else if n < 0x10000 then '\\' :: 'u' :: hex 4 n
  else '\\' :: 'U' :: hex 8 n

def quoteChar (quote c : Char) : List Char :=
  if c = quote ∨ c = '\\' then ['\\', c]
  else if c = '\n' then ['\\', 'n']
  else if c = '\r' then ['\\', 'r']
  else if c = '\t' then ['\\', 't']
  else if isPrintable c then [c]
  else codeEscape c

/-- The quote that needs fewest escapes, single when there is a choice. -/
def quoteFor (cs : List Char) : Char :=
  if '\'' ∈ cs ∧ '"' ∉ cs then '"' else '\''

def quotedChars (cs : List Char) : List Char :=
  let q := quoteFor cs
  q :: cs.flatMap (quoteChar q) ++ [q]

def quoted (s : String) : String := String.ofList (quotedChars s.toList)

end Text
end BracketTurtle
