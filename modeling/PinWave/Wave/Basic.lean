import PinWave.Hardware.Path
/-!
# Strobe vector waves

A wave holds one 64-bit word per time step for one hardware group: bit `b` of word `t` is the
level of the group's signal at bit `b` during step `t`. It also carries the strobe period of one
step in picoseconds, its hardware group (none for a wave meant for every group), ordered metadata,
and staged defaults: bits that the next commit sets (`mask`) or clears (`unmask`) in every word.

## Main definitions
* `Metadata`: keys with values in insertion order; a repeated key keeps its place.
* `Wave`, `Wave.Fault`.
* `Wave.setBit`, `Wave.stage`, `Wave.commit`, `Wave.trace`, `Wave.maxWord`, `Wave.same`.
-/

namespace PinWave

/-- Keys with values, in the order of first insertion. -/
structure Metadata where
  entries : List (String × String)
  deriving DecidableEq, Inhabited

namespace Metadata

/-- No entries. -/
def empty : Metadata := ⟨[]⟩

/-- Sets a key: an existing key keeps its place and takes the new value, a new key goes last. -/
def insert (m : Metadata) (k v : String) : Metadata :=
  if m.entries.any (·.1 == k) then ⟨m.entries.map fun e => if e.1 == k then (k, v) else e⟩
  else ⟨m.entries ++ [(k, v)]⟩

/-- The value of a key. -/
def get? (m : Metadata) (k : String) : Option String := (m.entries.find? (·.1 == k)).map (·.2)

/-- The metadata of a list of pairs inserted in order. -/
def ofList (kvs : List (String × String)) : Metadata :=
  kvs.foldl (fun m (k, v) => m.insert k v) empty

end Metadata

/-- A strobe vector wave for one hardware group. -/
structure Wave where
  vector : List UInt64
  strobe : Float
  hardware : Option HwPath
  mask : UInt64
  unmask : UInt64
  metadata : Metadata
  deriving Inhabited

namespace Wave

/-- Why an edit of a wave is refused. -/
inductive Fault where
  | bitOutOfRange (bit : Nat)
  | timestepOutOfRange (t len : Nat)
  deriving DecidableEq, Inhabited

/-- A wave with no staged bits and no metadata. -/
def make (vector : List UInt64) (strobe : Float) (hardware : Option HwPath) : Wave :=
  ⟨vector, strobe, hardware, 0, 0, .empty⟩

/-- A wave of `len` zero words. -/
def zeros (len : Nat) (strobe : Float) (hw : HwPath) : Wave :=
  make (List.replicate len 0) strobe (some hw)

/-- The number of steps. -/
def length (w : Wave) : Nat := w.vector.length

/-- The word with only bit `b` set, for bits below 64. -/
def bitWord (bit : Nat) : Except Fault UInt64 :=
  if bit < 64 then .ok ((1 : UInt64) <<< (UInt64.ofNat bit)) else .error (.bitOutOfRange bit)

/-- Sets or clears one bit of one word. -/
def setBit (w : Wave) (t bit : Nat) (value : Bool) : Except Fault Wave := do
  let b ← bitWord bit
  match w.vector[t]? with
  | none => throw (.timestepOutOfRange t w.length)
  | some v => pure { w with vector := w.vector.set t (if value then v ||| b else v &&& ~~~b) }

/-- The word with only bit `b` set. -/
def bitMask (b : Fin 64) : UInt64 := (1 : UInt64) <<< (UInt64.ofNat b.val)

/-- Stages bit `b` to be forced to `value` in every word at the next commit. -/
def stageAt (w : Wave) (b : Fin 64) (value : Bool) : Wave :=
  if value then { w with mask := w.mask ||| bitMask b, unmask := w.unmask &&& ~~~bitMask b }
  else { w with unmask := w.unmask ||| bitMask b, mask := w.mask &&& ~~~bitMask b }

/-- Stages one bit to be forced to `value` in every word at the next commit. -/
def stage (w : Wave) (bit : Nat) (value : Bool) : Except Fault Wave :=
  if h : bit < 64 then .ok (w.stageAt ⟨bit, h⟩ value) else .error (.bitOutOfRange bit)

/-- Forces the staged bits in every word and clears the stage. -/
def commit (w : Wave) : Wave :=
  if w.mask == 0 && w.unmask == 0 then w
  else
    { w with vector := w.vector.map (fun v => (v &&& ~~~w.unmask) ||| w.mask), mask := 0,
             unmask := 0 }

/-- The level of one bit over all steps; a bit past 63 reads low. -/
def trace (w : Wave) (bit : Nat) : List Bool :=
  if bit < 64 then w.vector.map fun v => (v >>> UInt64.ofNat bit) &&& 1 == 1
  else w.vector.map fun _ => false

/-- The largest word, or zero. -/
def maxWord (w : Wave) : UInt64 := w.vector.foldl max 0

/-- Two waves are the same when vector, hardware and strobe agree; the strobe compares as a
double, so a NaN strobe is never the same. Metadata and staged bits do not count. -/
def same (a b : Wave) : Bool :=
  a.vector == b.vector && a.hardware == b.hardware && a.strobe == b.strobe

@[simp] theorem length_commit (w : Wave) : w.commit.length = w.length := by
  unfold commit length
  split <;> simp

theorem setBit_bit_fault (w : Wave) (t bit : Nat) (value : Bool) (h : 64 ≤ bit) :
    w.setBit t bit value = .error (.bitOutOfRange bit) := by
  simp [setBit, bitWord, Nat.not_lt.mpr h, bind, Except.bind]

end Wave

end PinWave
