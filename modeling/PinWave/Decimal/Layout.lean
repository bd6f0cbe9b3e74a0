import PinWave.Decimal.Shortest
/-!
# Writing a double as text

A double is written from its shortest digits. A `Layout` says which powers of ten are written in
scientific form, whether a whole number keeps a `.0`, and how NaN and the infinities read. Fixed
places come from the exact binary value, rounded half to even.

## Main definitions
* `Layout`: the choices of one number format.
* `Layout.render`: a double in that format.
* `fixed`: a double with a given number of decimal places.
-/

namespace PinWave.Decimal

/-- The choices of one number format. Scientific form is used when the power of ten of the
value's leading digit is at least `scientificFrom` or below `scientificBelow`. -/
structure Layout where
  scientificFrom : Option Int
  scientificBelow : Option Int
  keepPointZero : Bool
  nanText : String
  infText : String

/-- The digits of a natural number. -/
def digitChars (c : Nat) : List Char := Nat.toDigits 10 c

/-- `c · 10^s` with a decimal point and no exponent. -/
def positional (c : Nat) (s : Int) (keepPointZero : Bool) : String :=
  let ds := digitChars c
  if 0 ≤ s then
    String.ofList (ds ++ List.replicate s.toNat '0') ++ (if keepPointZero then ".0" else "")
  else
    let k := (-s).toNat
    if k < ds.length then
      String.ofList (ds.take (ds.length - k) ++ '.' :: ds.drop (ds.length - k))
    else
      String.ofList ('0' :: '.' :: (List.replicate (k - ds.length) '0' ++ ds))

/-- `c · 10^s` as one digit, the other digits after a point if there are any, then `e` and the
power of ten. -/
def scientific (c : Nat) (s : Int) : String :=
  let ds := digitChars c
  let e : Int := s + ds.length - 1
  let mantissa := match ds with
    | [] => "0"
    | [d] => String.ofList [d]
    | d :: rest => String.ofList (d :: '.' :: rest)
  mantissa ++ "e" ++ toString e

/-- Whether a value whose leading digit has the power of ten `top` is written in scientific
form. -/
def Layout.isScientific (l : Layout) (top : Int) : Bool :=
  (match l.scientificFrom with | some f => decide (f ≤ top) | none => false) ||
    (match l.scientificBelow with | some b => decide (top < b) | none => false)

/-- A double in this format. Zero is written positionally; the choice of form follows the exact
value, and the digits are the shortest that read back. -/
def Layout.render (l : Layout) (x : Float) : String :=
  match Kind.ofFloat x with
  | .nan => l.nanText
  | .infinite neg => (if neg then "-" else "") ++ l.infText
  | .finite b =>
    let sign := if b.neg then "-" else ""
    if b.man = 0 then sign ++ positional 0 0 l.keepPointZero
    else
      let (c, s) := b.shortest
      if l.isScientific b.value.log10 then sign ++ scientific c s
      else sign ++ positional c s l.keepPointZero

/-- The plain decimal form: never an exponent, and no `.0` on whole numbers. -/
def Layout.plain : Layout := ⟨none, none, false, "NaN", "inf"⟩

/-- The tagged decimal form: scientific from `1e16` up and below `1e-4`, and a `.0` on whole
numbers, so that the text always reads as a double. -/
def Layout.tagged : Layout := ⟨some 16, some (-4), true, "NaN", "inf"⟩

/-- `⌊a / d⌉`, a half going to the even neighbour. -/
def roundHalfEven (a d : Nat) : Nat :=
  let q := a / d
  let r := a % d
  if 2 * r > d || (2 * r == d && q % 2 == 1) then q + 1 else q

/-- A double with `places` decimal places: the exact binary value rounded half to even. -/
def fixed (places : Nat) (x : Float) : String :=
  match Kind.ofFloat x with
  | .nan => "NaN"
  | .infinite neg => if neg then "-inf" else "inf"
  | .finite b =>
    let v := Frac.scaled b.man b.exp places
    let n := roundHalfEven v.num v.den
    let ds := digitChars n
    let ds := List.replicate (places + 1 - ds.length) '0' ++ ds
    let whole := ds.take (ds.length - places)
    let frac := ds.drop (ds.length - places)
    (if b.neg then "-" else "") ++ String.ofList whole ++
      (if places = 0 then "" else "." ++ String.ofList frac)

end PinWave.Decimal
