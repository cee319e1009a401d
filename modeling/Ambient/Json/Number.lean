/-
  The values of written numbers: which ones are 32-bit counts, and which ones are too large
  for a binary floating-point number of 64 bits.
-/
import Ambient.Json.Syntax

namespace Ambient.Json

/-- The value of a decimal digit. -/
def digitValue (c : Char) : Nat := c.toNat - '0'.toNat

/-- The value of digits, most significant first, after a value already read. -/
def digitsValue (start : Nat) (ds : List Char) : Nat :=
  ds.foldl (fun n d => n * 10 + digitValue d) start

namespace Number

/-- The number as a count below `2 ^ 32`, if it is written as a plain integer without a sign. -/
def toUInt32? (n : Number) : Option UInt32 :=
  if n.negative || n.fraction.isSome || n.exponent.isSome then none
  else
    let v := digitsValue 0 n.whole
    if v < UInt32.size then some v.toUInt32 else none

/-- A natural number rounded to 53 significant bits, a tie to the even neighbour. -/
def round53 (n : Nat) : Nat :=
  if n < Nat.pow 2 53 then n
  else
    let unit := Nat.pow 2 (n.log2 - 52)
    let q := n / unit
    let r := n % unit
    let up := unit < 2 * r || (2 * r == unit && q % 2 == 1)
    (if up then q + 1 else q) * unit

/-- Whether a significand times a power of ten, both rounded to 53 bits, is at most the
largest finite number when their product is rounded. -/
def isFinite (significand power : Nat) : Bool :=
  round53 significand * round53 (Nat.pow 10 power) < Nat.pow 2 1024 - Nat.pow 2 970

/-- The value of leading digits as long as it stays below `2 ^ 64`, after a value already
read, and the digits left over. -/
def takeDigits : Nat → List Char → Nat × List Char
  | n, [] => (n, [])
  | n, d :: ds =>
    if n * 10 + digitValue d < UInt64.size then takeDigits (n * 10 + digitValue d) ds
    else (n, d :: ds)

/-- The digits that count, as a significand below `2 ^ 64`, and the power of ten that places
the point. -/
def significand (n : Number) : Nat × Int :=
  let (s, rest) := takeDigits 0 n.whole
  match n.fraction with
  | none => (s, rest.length)
  | some ds =>
    let (s, left) := takeDigits s ds
    (s, rest.length - (ds.length - left.length : Int))

/-- Whether the number has a finite value: a significand other than zero may be scaled by
`10 ^ 308` at most, and its product must not round to infinity. -/
def inRange (n : Number) : Bool :=
  let (s, shift) := n.significand
  match n.exponent with
  | some (false, ds) =>
    let e := digitsValue 0 ds
    s == 0 || (e < Nat.pow 2 31 && fits s (shift + e))
  | some (true, ds) => fits s (shift - digitsValue 0 ds)
  | none => fits s shift
where
  /-- Whether a scaled significand has a finite value. -/
  fits (s : Nat) (e : Int) : Bool := s == 0 || e < 0 || (e ≤ 308 && isFinite s e.toNat)

end Number

end Ambient.Json
