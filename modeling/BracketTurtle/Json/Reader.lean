import BracketTurtle.Json.Writer
import BracketTurtle.Number.Digits
import BracketTurtle.Number.Exact
import BracketTurtle.Text.Lines

/-!
# Reading JSON

Every function here takes the text that is still unread and returns a value with the text after
it. A fault carries the text from the fault on, so its position is the length of what was read.
Beyond the standard grammar the words `NaN`, `Infinity` and `-Infinity` are numbers. `fuel`
bounds the nested calls, of which no character needs more than two; there is no bound on how deep
values nest, nor on the digits of an integer.

An escape may spell half of a pair that stands for one character, without the other half. Strings
here hold characters only, so another character stands in for such a half. A value has none if it
is read alike whichever character that is.
-/

namespace BracketTurtle
namespace Json

inductive Cause where
  | expectedValue
  | expectedName
  | expectedColon
  | expectedComma
  | unterminatedString
  | controlCharacter
  | invalidEscape
  | invalidCodeEscape
  | extraData
  | byteOrderMark
deriving DecidableEq, Repr

def Cause.message : Cause → String
  | .expectedValue => "Expecting value"
  | .expectedName => "Expecting property name enclosed in double quotes"
  | .expectedColon => "Expecting ':' delimiter"
  | .expectedComma => "Expecting ',' delimiter"
  | .unterminatedString => "Unterminated string starting at"
  | .controlCharacter => "Invalid control character at"
  | .invalidEscape => "Invalid \\escape"
  | .invalidCodeEscape => "Invalid \\uXXXX escape"
  | .extraData => "Extra data"
  | .byteOrderMark => "Unexpected UTF-8 BOM (decode using utf-8-sig)"

/-- Why reading stopped, and the text from there on. -/
structure Stop where
  cause : Cause
  rest : List Char
deriving DecidableEq, Repr

def isBlank (c : Char) : Bool := c = ' ' || c = '\t' || c = '\n' || c = '\r'

def skipBlanks (cs : List Char) : List Char := cs.dropWhile isBlank

def hexValue? (c : Char) : Option Nat :=
  let n := c.toNat
  if '0' ≤ c ∧ c ≤ '9' then some (n - 0x30)
  else if 'a' ≤ c ∧ c ≤ 'f' then some (n - 0x57)
  else if 'A' ≤ c ∧ c ≤ 'F' then some (n - 0x37)
  else none

/-- Four hexadecimal digits with at least one character after them. -/
def code? : List Char → Option Nat
  | a :: b :: c :: d :: _ :: _ => do
    let a ← hexValue? a
    let b ← hexValue? b
    let c ← hexValue? c
    let d ← hexValue? d
    return ((a * 16 + b) * 16 + c) * 16 + d
  | _ => none

/-- The second half of a pair that stands for one character beyond the first plane. -/
inductive Half where
  | low (n : Nat)
  | other
  | malformed (rest : List Char)

def secondHalf : List Char → Half
  | '\\' :: 'u' :: cs =>
    if cs.length < 5 then .other
    else
      match code? cs with
      | none => .malformed ('u' :: cs)
      | some n => if 0xdc00 ≤ n ∧ n < 0xe000 then .low n else .other
  | _ => .other

def letterEscape? : Char → Option Char
  | '"' => some '"'
  | '\\' => some '\\'
  | '/' => some '/'
  | 'b' => some '\x08'
  | 'f' => some '\x0c'
  | 'n' => some '\n'
  | 'r' => some '\r'
  | 't' => some '\t'
  | _ => none

section

/-! Half of a pair that stands alone is no character. -/

variable (half : Char)

/-- What follows a backslash: the character it stands for and how many characters spell it.
`opened` is the text from the quote that opens the string. -/
def escape (opened : List Char) : List Char → Except Stop (Char × Nat)
  | [] => .error ⟨.unterminatedString, opened⟩
  | 'u' :: cs =>
    match code? cs with
    | none => .error ⟨.invalidCodeEscape, 'u' :: cs⟩
    | some n =>
      if 0xd800 ≤ n ∧ n < 0xdc00 then
        match secondHalf (cs.drop 4) with
        | .low l => .ok (Char.ofNat (0x10000 + (n - 0xd800) * 0x400 + (l - 0xdc00)), 11)
        | .other => .ok (half, 5)
        | .malformed rest => .error ⟨.invalidCodeEscape, rest⟩
      else if 0xdc00 ≤ n ∧ n < 0xe000 then .ok (half, 5)
      else .ok (Char.ofNat n, 5)
  | c :: cs =>
    match letterEscape? c with
    | some d => .ok (d, 1)
    | none => .error ⟨.invalidEscape, '\\' :: c :: cs⟩

/-- The text up to the closing quote. The first `skip` characters belong to an escape that has
been read; `read` holds the characters so far, latest first. -/
def stringBody (opened : List Char) :
    Nat → List Char → List Char → Except Stop (String × List Char)
  | _, _, [] => .error ⟨.unterminatedString, opened⟩
  | skip + 1, read, _ :: cs => stringBody opened skip read cs
  | 0, read, c :: cs =>
    if c = '"' then .ok (String.ofList read.reverse, cs)
    else if c = '\\' then
      match escape half opened cs with
      | .error stop => .error stop
      | .ok (d, n) => stringBody opened n (d :: read) cs
    else if c.toNat < 0x20 then .error ⟨.controlCharacter, c :: cs⟩
    else stringBody opened 0 (c :: read) cs

/-- The digits of a fraction: a point and at least one digit. -/
def fraction (cs : List Char) : List Char × List Char :=
  match cs with
  | '.' :: r => if (Number.takeDigits r).1.isEmpty then ([], cs) else Number.takeDigits r
  | _ => ([], cs)

/-- A signed exponent, if at least one digit follows its mark. -/
def exponent? (cs : List Char) : Option (Int × List Char) :=
  match cs with
  | e :: r =>
    if e = 'e' ∨ e = 'E' then
      let signed : Bool × List Char :=
        match r with
        | '-' :: r' => (true, r')
        | '+' :: r' => (false, r')
        | _ => (false, r)
      let (ds, rest) := Number.takeDigits signed.2
      if ds.isEmpty then none
      else
        let n : Int := Number.digitsValue ds
        some (if signed.1 then -n else n, rest)
    else none
  | [] => none

/-- The digits of a whole part: a single zero, or digits that do not begin with one. -/
def wholePart (cs : List Char) : List Char × List Char :=
  match cs with
  | '0' :: r => (['0'], r)
  | _ => Number.takeDigits cs

/-- The longest number at the front. With a fraction or an exponent it is a double. -/
def number? (cs : List Char) : Option (Json × List Char) :=
  let (negative, r) : Bool × List Char :=
    match cs with
    | '-' :: r => (true, r)
    | _ => (false, cs)
  let (whole, r) := wholePart r
  if whole.isEmpty then none
  else
    let (part, r) := fraction r
    let value := Number.digitsValue (whole ++ part)
    match exponent? r with
    | some (e, rest) => some (.number (Number.ofDecimal negative value (e - part.length)), rest)
    | none =>
      if part.isEmpty then some (.integer (if negative then -(value : Int) else value), r)
      else some (.number (Number.ofDecimal negative value (-(part.length : Int))), r)

/-- A word of the grammar at the front. -/
def word? (cs : List Char) : Option (Json × List Char) :=
  let words : List (List Char × Json) :=
    [("null".toList, .null), ("true".toList, .bool true), ("false".toList, .bool false),
      ("NaN".toList, .number (0.0 / 0.0)), ("Infinity".toList, .number (1.0 / 0.0)),
      ("-Infinity".toList, .number (-1.0 / 0.0))]
  words.findSome? fun w => if w.1.isPrefixOf cs then some (w.2, cs.drop w.1.length) else none

mutual

def value : Nat → List Char → Except Stop (Json × List Char)
  | 0, cs => .error ⟨.expectedValue, cs⟩
  | fuel + 1, cs =>
    match cs with
    | '"' :: r =>
      match stringBody half cs 0 [] r with
      | .error stop => .error stop
      | .ok (s, r) => .ok (.string s, r)
    | '{' :: r =>
      match skipBlanks r with
      | '}' :: r => .ok (.object [], r)
      | r => members fuel [] r
    | '[' :: r =>
      match skipBlanks r with
      | ']' :: r => .ok (.array [], r)
      | r => elements fuel [] r
    | _ =>
      match word? cs <|> number? cs with
      | some found => .ok found
      | none => .error ⟨.expectedValue, cs⟩

/-- Elements of an array up to its end; `read` holds those so far, latest first. -/
def elements : Nat → List Json → List Char → Except Stop (Json × List Char)
  | 0, _, cs => .error ⟨.expectedValue, cs⟩
  | fuel + 1, read, cs =>
    match value fuel cs with
    | .error stop => .error stop
    | .ok (v, r) =>
      match skipBlanks r with
      | ']' :: r => .ok (.array (v :: read).reverse, r)
      | ',' :: r => elements fuel (v :: read) (skipBlanks r)
      | r => .error ⟨.expectedComma, r⟩

/-- Members of an object up to its end; `read` holds those so far. -/
def members : Nat → List (String × Json) → List Char → Except Stop (Json × List Char)
  | 0, _, cs => .error ⟨.expectedName, cs⟩
  | fuel + 1, read, cs =>
    match cs with
    | '"' :: r =>
      match stringBody half cs 0 [] r with
      | .error stop => .error stop
      | .ok (key, r) =>
        match skipBlanks r with
        | ':' :: r =>
          match value fuel (skipBlanks r) with
          | .error stop => .error stop
          | .ok (v, r) =>
            match skipBlanks r with
            | '}' :: r => .ok (.object (Table.put key v read), r)
            | ',' :: r => members fuel (Table.put key v read) (skipBlanks r)
            | r => .error ⟨.expectedComma, r⟩
        | r => .error ⟨.expectedColon, r⟩
    | _ => .error ⟨.expectedName, cs⟩

end

/-- The value that is the whole text, blanks around it apart. -/
def document (cs : List Char) : Except Stop Json :=
  if cs.head? = some '\ufeff' then .error ⟨.byteOrderMark, cs⟩
  else
    match value half (2 * cs.length + 2) (skipBlanks cs) with
    | .error stop => .error stop
    | .ok (v, r) =>
      match skipBlanks r with
      | [] => .ok v
      | r => .error ⟨.extraData, r⟩

end

/-- A fault with its position in the text. -/
structure SyntaxError where
  cause : Cause
  offset : Nat
  place : Text.Place
deriving DecidableEq, Repr

def Stop.locate (text : List Char) (stop : Stop) : SyntaxError :=
  let offset := text.length - stop.rest.length
  ⟨stop.cause, offset, Text.placeAfter (text.take offset)⟩

def SyntaxError.message (e : SyntaxError) : String :=
  e.cause.message ++ ": line " ++ Number.naturalText e.place.line ++ " column " ++
    Number.naturalText e.place.column ++ " (char " ++ Number.naturalText e.offset ++ ")"

/-- Reads a text, with a character for every half of a pair that stands alone. -/
def readWith (half : Char) (text : List Char) : Except SyntaxError Json :=
  match document half text with
  | .error stop => .error (stop.locate text)
  | .ok v => .ok v

def read (text : List Char) : Except SyntaxError Json := readWith '\ufffd' text

end Json
end BracketTurtle
