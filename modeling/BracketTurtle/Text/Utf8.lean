import BracketTurtle.Number.Digits
import BracketTurtle.Text.Quoted

/-!
# Text as bytes

Files hold text in UTF-8. Reading goes byte by byte and keeps the character that has begun: how
many bytes it still owes and the range of the next one, which rules out long forms, surrogates
and numbers beyond the last code point. Malformed bytes are reported with the range from the
first byte of the character to the last one that was accepted.
-/

namespace BracketTurtle
namespace Utf8

inductive Cause where
  | invalidStart
  | invalidContinuation
  | unexpectedEnd
deriving DecidableEq, Repr

/-- Bytes that are no text: the first of them, its position and that of the last. -/
structure Malformed where
  cause : Cause
  byte : UInt8
  first : Nat
  last : Nat
deriving DecidableEq, Repr

def Cause.message : Cause → String
  | .invalidStart => "invalid start byte"
  | .invalidContinuation => "invalid continuation byte"
  | .unexpectedEnd => "unexpected end of data"

/-- One byte is shown, several are only counted. -/
def Malformed.message (e : Malformed) : String :=
  "'utf-8' codec can't decode " ++
    (if e.first = e.last then
      "byte 0x" ++ String.ofList (Text.hex 2 e.byte.toNat) ++ " in position " ++
        Number.naturalText e.first
    else
      "bytes in position " ++ Number.naturalText e.first ++ "-" ++ Number.naturalText e.last) ++
    ": " ++ e.cause.message

/-- A character that has begun. -/
structure Begun where
  byte : UInt8
  position : Nat
  bits : Nat
  owed : Nat
  low : UInt8
  high : UInt8
deriving DecidableEq, Repr

/-- What a byte between characters does. -/
inductive Opening where
  | char (c : Char)
  | begun (b : Begun)
  | refused
deriving DecidableEq, Repr

def opening (position : Nat) (b : UInt8) : Opening :=
  let n := b.toNat
  if n < 0x80 then .char (Char.ofNat n)
  else if n < 0xc2 then .refused
  else if n < 0xe0 then .begun ⟨b, position, n - 0xc0, 1, 0x80, 0xbf⟩
  else if n < 0xf0 then
    .begun ⟨b, position, n - 0xe0, 2, if n = 0xe0 then 0xa0 else 0x80,
      if n = 0xed then 0x9f else 0xbf⟩
  else if n < 0xf5 then
    .begun ⟨b, position, n - 0xf0, 3, if n = 0xf0 then 0x90 else 0x80,
      if n = 0xf4 then 0x8f else 0xbf⟩
  else .refused

/-- The characters are collected latest first. -/
def decodeFrom (position : Nat) (pending : Option Begun) (read : List Char) :
    List UInt8 → Except Malformed (List Char)
  | [] =>
    match pending with
    | none => .ok read.reverse
    | some o => .error ⟨.unexpectedEnd, o.byte, o.position, position - 1⟩
  | b :: bs =>
    match pending with
    | none =>
      match opening position b with
      | .char c => decodeFrom (position + 1) none (c :: read) bs
      | .begun o => decodeFrom (position + 1) (some o) read bs
      | .refused => .error ⟨.invalidStart, b, position, position⟩
    | some o =>
      if o.low ≤ b ∧ b ≤ o.high then
        let bits := o.bits * 64 + (b.toNat - 0x80)
        if o.owed ≤ 1 then decodeFrom (position + 1) none (Char.ofNat bits :: read) bs
        else
          decodeFrom (position + 1) (some ⟨o.byte, o.position, bits, o.owed - 1, 0x80, 0xbf⟩)
            read bs
      else .error ⟨.invalidContinuation, o.byte, o.position, position - 1⟩

def decode (bytes : List UInt8) : Except Malformed (List Char) := decodeFrom 0 none [] bytes

def encode (cs : List Char) : List UInt8 := cs.flatMap String.utf8EncodeChar

end Utf8
end BracketTurtle
