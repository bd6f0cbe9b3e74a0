import PinWave.Decimal.Shortest
/-!
# Reading numbers

A decimal number is read into the nearest double, a half going to the even significand, and a
value past the largest double reads as infinity. The accepted text is an optional sign, then
`inf`, `infinity` or `nan` in any letter case, or digits with at most one point and at least one
digit, followed by an optional exponent `e` or `E` with an optional sign and at least one digit.
Whole numbers are an optional `+` and at least one digit, up to a bound. A whole number read as
a signed integer and then checked against a range from zero may also carry a `-`, which only a
zero survives.

## Main definitions
* `nearestBits`: the bits of the double nearest to `d · 10^x`.
* `readFloat?`: the decimal grammar above.
* `readWhole?`: a bounded whole number.
* `readRanged?`: a whole number read with a sign and checked against `0 ..= bound`.
-/

namespace PinWave.Decimal

-- Powers of numbers use the core `Pow` instance and literal exponents are typed as naturals, so
-- these definitions elaborate to the same terms whether or not Mathlib's instances are in scope.
attribute [local instance (high)] instPowNat

/-- The bits of positive infinity. -/
def infinityBits : Nat := 0x7FF0000000000000

/-- The bits of the nonnegative double nearest to `d · 10^x`. Values far outside the range of
doubles are settled by their digit count before any large power is formed: below `10^-324` they
are nearer to zero than to the least double, and from `10^309` up they are past the largest. -/
def nearestBits (d : Nat) (x : Int) : Nat :=
  let len : Int := decimalLength d
  if d = 0 then 0
  else if x + len < -324 then 0
  else if x + len > 309 then infinityBits
  else
    let v := Frac.scaled d 0 x
    let e := v.log2
    -- the power of two of the last significand bit
    let q : Int := if e < -1022 then -1074 else e - 52
    let m := roundHalfEvenFrac (Frac.scaled v.num (-q) 0) v.den
    let bits := if e < -1022 then m else (e + 1022).toNat * 2 ^ (52 : Nat) + m
    min bits infinityBits
where
  /-- `⌊x / d⌉` for `x = a / b`, a half going to the even neighbour. -/
  roundHalfEvenFrac (x : Frac) (d : Nat) : Nat :=
    let a := x.num
    let b := x.den * d
    let q := a / b
    let r := a % b
    if 2 * r > b || (2 * r == b && q % 2 == 1) then q + 1 else q

/-- The double with the given sign nearest to `d · 10^x`. -/
def nearest (neg : Bool) (d : Nat) (x : Int) : Float :=
  let bits := nearestBits d x
  Float.ofBits (UInt64.ofNat (if neg then bits + 2 ^ (63 : Nat) else bits))

/-- The value of a digit character. -/
def digitValue (c : Char) : Nat := c.toNat - '0'.toNat

/-- The number that a list of digits spells. -/
def digitsValue (ds : List Char) : Nat := ds.foldl (fun n c => 10 * n + digitValue c) 0

/-- Whether two texts agree up to the case of ASCII letters. -/
def sameLetters (a b : List Char) : Bool := a.map Char.toLower == b.map Char.toLower

/-- Reads `(e|E) [sign] digits` to the end of the text. -/
def readExponent? : List Char → Option Int
  | [] => some 0
  | c :: rest =>
    if c == 'e' || c == 'E' then
      let (neg, ds) := match rest with
        | '-' :: ds => (true, ds)
        | '+' :: ds => (false, ds)
        | ds => (false, ds)
      if !ds.isEmpty && ds.all Char.isDigit then
        let n : Int := digitsValue ds
        some (if neg then -n else n)
      else none
    else none

/-- Reads an unsigned decimal: digits, an optional point and digits, an optional exponent. -/
def readUnsigned? (neg : Bool) (cs : List Char) : Option Float :=
  if sameLetters cs "inf".toList || sameLetters cs "infinity".toList then
    some (if neg then -(1.0 / 0.0) else 1.0 / 0.0)
  else if sameLetters cs "nan".toList then some (0.0 / 0.0)
  else
    let whole := cs.takeWhile Char.isDigit
    let rest := cs.dropWhile Char.isDigit
    let (frac, rest) := match rest with
      | '.' :: r => (r.takeWhile Char.isDigit, r.dropWhile Char.isDigit)
      | r => ([], r)
    if whole.isEmpty && frac.isEmpty then none
    else
      (readExponent? rest).map fun e =>
        nearest neg (digitsValue (whole ++ frac)) (e - frac.length)

/-- Reads a double: an optional sign, then an unsigned decimal, `inf`, `infinity` or `nan`. -/
def readFloat? (s : String) : Option Float :=
  match s.toList with
  | '-' :: cs => readUnsigned? true cs
  | '+' :: cs => readUnsigned? false cs
  | cs => readUnsigned? false cs

/-- Reads a whole number: an optional `+`, at least one digit, and a value at most `bound`. -/
def readWhole? (s : String) (bound : Nat) : Option Nat :=
  let ds := match s.toList with
    | '+' :: ds => ds
    | ds => ds
  if !ds.isEmpty && ds.all Char.isDigit && digitsValue ds ≤ bound then some (digitsValue ds)
  else none

/-- Reads a signed integer and checks that it lies in `0 ..= bound`: the text is an optional sign
and at least one digit, and with `-` it passes only when every digit is zero. -/
def readRanged? (s : String) (bound : Nat) : Option Nat :=
  match s.toList with
  | '-' :: ds => if !ds.isEmpty && ds.all (· == '0') then some 0 else none
  | _ => readWhole? s bound

@[simp] theorem digitsValue_nil : digitsValue [] = 0 := rfl

end PinWave.Decimal
