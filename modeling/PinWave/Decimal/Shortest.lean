/-!
# Shortest decimal digits of a double

A finite double is `(-1)^neg · m · 2^q`. The reals that round to it form an interval around it;
its ends belong to it exactly when `m` is even. The shortest decimal that reads back is found by
trying grids of 1, 2, …, 17 significant digits: on each grid only the two neighbours of the value
can lie in the interval, the first grid with a hit wins, of two hits the nearer one, and of two
equally near the upper one, as when the digits of the value are cut and a remainder of a half
or more rounds up.

## Main definitions
* `Frac`: a fraction of naturals, compared exactly.
* `Kind.ofBits`: a double's bits as NaN, an infinity or a finite `Binary`.
* `Binary.shortest`: the fewest significant digits that read back, with the power of ten of the
  last digit.
-/

namespace PinWave.Decimal

-- Powers of numbers use the core `Pow` instance and literal exponents are typed as naturals, so
-- these definitions elaborate to the same terms whether or not Mathlib's instances are in scope.
attribute [local instance (high)] instPowNat

/-- A nonnegative rational number `num / den`. -/
structure Frac where
  num : Nat
  den : Nat

namespace Frac

/-- The number `a · 2^p · 10^k`. -/
def scaled (a : Nat) (p k : Int) : Frac :=
  ⟨a * 2 ^ p.toNat * 10 ^ k.toNat, 2 ^ (-p).toNat * 10 ^ (-k).toNat⟩

/-- Strict order, by cross-multiplication. -/
def lt (x y : Frac) : Bool := x.num * y.den < y.num * x.den

/-- Order, by cross-multiplication. -/
def le (x y : Frac) : Bool := x.num * y.den ≤ y.num * x.den

/-- `⌊x / 10^s⌋`. -/
def floorTen (x : Frac) (s : Int) : Nat :=
  x.num * 10 ^ (-s).toNat / (x.den * 10 ^ s.toNat)

end Frac

/-- The number of decimal digits of a natural number (one for zero). -/
def decimalLength (n : Nat) : Nat := (Nat.toDigits 10 n).length

/-- `⌊log₁₀ x⌋` of a positive fraction: the digit counts of numerator and denominator give it
up to one, and one comparison settles it. -/
def Frac.log10 (x : Frac) : Int :=
  let e : Int := (decimalLength x.num : Int) - decimalLength x.den
  if (Frac.scaled 1 0 e).le x then e else e - 1

/-- `⌊log₂ x⌋` of a positive fraction, found like `Frac.log10`. -/
def Frac.log2 (x : Frac) : Int :=
  let e : Int := (x.num.log2 : Int) - x.den.log2
  if (Frac.scaled 1 e 0).le x then e else e - 1

/-- The magnitude `man · 2^exp` of a finite double. `lowerClose` marks a power of two above the
least normal value, whose lower neighbour is half as far as its upper one. -/
structure Binary where
  neg : Bool
  man : Nat
  exp : Int
  lowerClose : Bool

/-- What the bits of a double stand for. -/
inductive Kind where
  | nan
  | infinite (neg : Bool)
  | finite (b : Binary)

/-- Splits the 64 bits of a double into sign, biased exponent and fraction. -/
def Kind.ofBits (w : UInt64) : Kind :=
  let n : Nat := w.toNat
  let neg : Bool := decide (2 ^ (63 : Nat) ≤ n)
  let field : Nat := n / 2 ^ (52 : Nat) % 2 ^ (11 : Nat)
  let frac : Nat := n % 2 ^ (52 : Nat)
  if field = 2047 then
    if frac = 0 then .infinite neg else .nan
  else if field = 0 then .finite ⟨neg, frac, -1074, false⟩
  else .finite ⟨neg, frac + 2 ^ (52 : Nat), (field : Int) - 1075, frac == 0 && field > 1⟩

/-- What a double stands for. -/
def Kind.ofFloat (x : Float) : Kind := Kind.ofBits x.toBits

namespace Binary

/-- The magnitude as a fraction. -/
def value (b : Binary) : Frac := Frac.scaled b.man b.exp 0

/-- The lower end of the rounding interval: halfway to the lower neighbour. -/
def lower (b : Binary) : Frac :=
  if b.lowerClose then Frac.scaled (4 * b.man - 1) (b.exp - 2) 0
  else Frac.scaled (2 * b.man - 1) (b.exp - 1) 0

/-- The upper end of the rounding interval: halfway to the upper neighbour. -/
def upper (b : Binary) : Frac := Frac.scaled (2 * b.man + 1) (b.exp - 1) 0

/-- Whether the decimal `c · 10^s` reads back as this magnitude: it lies in the rounding
interval, whose ends count when the significand is even (ties go to even). -/
def readsBack (b : Binary) (c : Nat) (s : Int) : Bool :=
  let x := Frac.scaled c 0 s
  if b.man % 2 == 0 then b.lower.le x && x.le b.upper
  else b.lower.lt x && x.lt b.upper

/-- The neighbour of the magnitude on the grid `10^s` that reads back, if any: of two, the nearer
one, and of two equally near, the upper one. -/
def onGrid (b : Binary) (s : Int) : Option Nat :=
  let c := b.value.floorTen s
  let lo := b.readsBack c s
  let hi := b.readsBack (c + 1) s
  if lo && hi then
    let twice := Frac.scaled b.man (b.exp + 1) 0
    let mid := Frac.scaled (2 * c + 1) 0 s
    if twice.lt mid then some c
    else some (c + 1)
  else if lo then some c
  else if hi then some (c + 1)
  else none

/-- Tries the grids `10^(top - n)` for the counts `n` in order; the last resort is the grid of
seventeen digits, where a neighbour always reads back. -/
def search (b : Binary) (top : Int) : List Nat → Nat × Int
  | [] => (b.value.floorTen (top - 16), top - 16)
  | n :: ns =>
    match b.onGrid (top - n) with
    | some c => (c, top - n)
    | none => search b top ns

end Binary

/-- Moves trailing zeros of `c` into the power of ten `s`. -/
def stripZeros (c : Nat) (s : Int) : Nat × Int :=
  if h : c ≠ 0 ∧ c % 10 = 0 then stripZeros (c / 10) (s + 1) else (c, s)
termination_by c
decreasing_by omega

/-- The shortest decimal `c · 10^s` that reads back as a nonzero magnitude, with no trailing
zero in `c`. -/
def Binary.shortest (b : Binary) : Nat × Int :=
  let (c, s) := b.search b.value.log10 (List.range 17)
  stripZeros c s

theorem stripZeros_of_not {c : Nat} {s : Int} (h : ¬(c ≠ 0 ∧ c % 10 = 0)) :
    stripZeros c s = (c, s) := by
  rw [stripZeros]; simp only [h, dite_false]

end PinWave.Decimal
