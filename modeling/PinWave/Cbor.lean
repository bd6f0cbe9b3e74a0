import PinWave.Decimal.Shortest
/-!
# Concise binary object representation

Items are written with the definite-length encodings of the format: a head byte holding the
major type and either a small argument or the width of the argument that follows in big-endian
order, then the contents. A double is written in the narrowest of the half, single and double
widths that holds it exactly.

## Main definitions
* `Cbor.Item`: unsigned integers, text, arrays, maps, truth values and doubles.
* `Cbor.narrowBits`: the bits of a value in a narrower binary format, when it holds it.
* `Cbor.Item.encode`: the bytes of an item.
-/

namespace PinWave.Cbor

-- Powers of numbers use the core `Pow` instance and literal exponents are typed as naturals, so
-- these definitions elaborate to the same terms whether or not Mathlib's instances are in scope.
attribute [local instance (high)] instPowNat

/-- An item of the format. -/
inductive Item where
  | uint (n : Nat)
  | text (s : String)
  | array (xs : List Item)
  | map (kvs : List (String × Item))
  | bool (b : Bool)
  | float (x : Float)
  deriving Inhabited

/-- The low `width` bytes of a number, most significant first. -/
def bigEndian (n width : Nat) : List UInt8 :=
  (List.range width).reverse.map fun i => UInt8.ofNat (n / 256 ^ i % 256)

/-- The head of an item: major type and argument. -/
def head (major n : Nat) : List UInt8 :=
  let lead (info : Nat) := UInt8.ofNat (major * 32 + info)
  if n < 24 then [lead n]
  else if n < 2 ^ (8 : Nat) then lead 24 :: bigEndian n 1
  else if n < 2 ^ (16 : Nat) then lead 25 :: bigEndian n 2
  else if n < 2 ^ (32 : Nat) then lead 26 :: bigEndian n 4
  else lead 27 :: bigEndian n 8

/-- Removes factors of two from the significand into the exponent. -/
def oddPart (man : Nat) (exp : Int) : Nat × Int :=
  if h : man ≠ 0 ∧ man % 2 = 0 then oddPart (man / 2) (exp + 1) else (man, exp)
termination_by man
decreasing_by omega

/-- A binary format: significand bits with the leading one, the least and greatest exponent of a
normal value, and the total width. -/
structure Format where
  precision : Nat
  minExp : Int
  maxExp : Int
  width : Nat

/-- Half precision. -/
def half : Format := ⟨11, -14, 15, 16⟩

/-- Single precision. -/
def single : Format := ⟨24, -126, 127, 32⟩

/-- The bits of a finite magnitude `man · 2^exp` in format `f`, when `f` holds it exactly. -/
def narrowBits (f : Format) (neg : Bool) (man : Nat) (exp : Int) : Option Nat :=
  let sign := if neg then 2 ^ (f.width - 1) else 0
  let fracBits := f.precision - 1
  let bias : Int := f.maxExp
  if man = 0 then some sign
  else
    let (m, e) := oddPart man exp
    let len := m.log2 + 1
    let lead : Int := e + len - 1
    let least : Int := f.minExp - fracBits
    if len > f.precision || e < least || lead > f.maxExp then none
    else if lead ≥ f.minExp then
      some (sign + (lead + bias).toNat * 2 ^ fracBits + (m * 2 ^ (f.precision - len) - 2 ^ fracBits))
    else some (sign + m * 2 ^ (e - least).toNat)

/-- The bytes of a double in the narrowest width that holds it. -/
def floatBytes (x : Float) : List UInt8 :=
  let wide := 0xfb :: bigEndian x.toBits.toNat 8
  match Decimal.Kind.ofFloat x with
  | .nan => [0xf9, 0x7e, 0x00]
  | .infinite neg => [0xf9, if neg then 0xfc else 0x7c, 0x00]
  | .finite b =>
    match narrowBits half b.neg b.man b.exp with
    | some h => 0xf9 :: bigEndian h 2
    | none =>
      match narrowBits single b.neg b.man b.exp with
      | some s => 0xfa :: bigEndian s 4
      | none => wide

/-- The bytes of an item. -/
def Item.encode : Item → List UInt8
  | .uint n => head 0 n
  | .text s => head 3 s.utf8ByteSize ++ s.toUTF8.toList
  | .array xs => head 4 xs.length ++ (xs.map Item.encode).flatten
  | .map kvs => head 5 kvs.length ++
      (kvs.attach.map fun ⟨kv, h⟩ =>
        have : sizeOf kv.2 < 1 + sizeOf kvs := by
          have := List.sizeOf_lt_of_mem h
          cases kv
          simp only [Prod.mk.sizeOf_spec] at this ⊢
          omega
        head 3 kv.1.utf8ByteSize ++ kv.1.toUTF8.toList ++ kv.2.encode).flatten
  | .bool b => [if b then 0xf5 else 0xf4]
  | .float x => floatBytes x

example : head 0 8 = [0x08] := by decide

end PinWave.Cbor
