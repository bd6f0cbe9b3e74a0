import PinWave.Decimal.Read
/-!
# Dump headers

The header of a value change dump, as the dump library hands it over: the last timescale given,
and the entries outside any scope, each a scope with its own entries or a variable with its
width, identifier code and name. The library may hand over entries of other kinds; they name no
signal.

## Main definitions
* `TimeUnit`, `TimeUnit.picoseconds`.
* `Item`, `Header`, `Header.topScope`.
-/

namespace PinWave.Dump

/-- The units of a timescale. -/
inductive TimeUnit where
  | s | ms | us | ns | ps | fs
  deriving DecidableEq, Inhabited

/-- The picoseconds of one unit. -/
def TimeUnit.picoseconds : TimeUnit → Float
  | .s => Decimal.nearest false 1 12
  | .ms => Decimal.nearest false 1 9
  | .us => Decimal.nearest false 1 6
  | .ns => Decimal.nearest false 1 3
  | .ps => Decimal.nearest false 1 0
  | .fs => Decimal.nearest false 1 (-3)

/-- An entry of the header: a scope with its entries, a variable, or an entry of another kind. -/
inductive Item where
  | scope (name : String) (children : List Item)
  | var (size : Nat) (code : Nat) (reference : String)
  | other
  deriving Inhabited

/-- A read header: the last timescale given, and the entries outside any scope. -/
structure Header where
  timescale : Option (Nat × TimeUnit)
  items : List Item
  deriving Inhabited

/-- The name of the first scope outside any other. -/
def Header.topScope (h : Header) : Option String :=
  h.items.findSome? fun
    | .scope name _ => some name
    | _ => none

end PinWave.Dump
