import PinWave.Error
import PinWave.Decimal.Layout
/-!
# Comparing waves

Read-only questions about one or two waves over a pin table: the duty cycle of each signal, and
whether two waves agree on a signal at every step they share; the levels of named signals in
both waves and where they differ; the levels of one signal; and the bits of a serial line,
sampled at every rising clock edge from the step before the edge.

## Main definitions
* `PinTable.waveSignals`: the signals a wave carries.
* `Report`, `compare`, `Report.render`.
* `Difference`, `differences`, `bitstream`, `clockedBits`.
-/

namespace PinWave

/-- The signals a wave carries: its group's, or every signal for a wave of no group. -/
def PinTable.waveSignals (t : PinTable) (w : Wave) : List Signal :=
  match w.hardware with
  | some hw => t.groupSignals hw
  | none => t.signals

/-- The signal of a name, or the error naming it. -/
def PinTable.require (t : PinTable) (name : String) : Except Error Signal :=
  match t.find? name with
  | some s => .ok s
  | none => .error (.unknownSignal name)

/-- The fraction of high levels, or zero for no levels. -/
def dutyCycle (levels : List Bool) : Float :=
  if levels.isEmpty then 0.0
  else (levels.countP id).toFloat / levels.length.toFloat

/-- One signal of a comparison. -/
structure Comparison where
  name : String
  direction : Direction
  duty1 : Float
  duty2 : Float
  passthrough : Bool

/-- A comparison of two waves, signal by signal. -/
structure Report where
  len1 : Nat
  len2 : Nat
  rows : List Comparison

/-- Compares two waves over the signals of the first: duty cycles over each whole wave, and
agreement over the steps both have. -/
def compare (t : PinTable) (w1 w2 : Wave) : Report :=
  let common := min w1.length w2.length
  ⟨w1.length, w2.length, (t.waveSignals w1).map fun s =>
    let t1 := w1.trace s.bit.val
    let t2 := w2.trace s.bit.val
    ⟨s.name, s.direction, dutyCycle t1, dutyCycle t2, t1.take common == t2.take common⟩⟩

/-- Pads text with spaces to at least `n` characters. -/
def padRight (n : Nat) (s : String) : String := s ++ String.ofList (List.replicate (n - s.length) ' ')

/-- Duty cycles in a report have five decimal places. -/
def Report.dutyPlaces : Nat := 5

/-- The text of a report: the two lengths, a header, and one line per signal. -/
def Report.render (r : Report) : String :=
  "Wave 1 len: " ++ toString r.len1 ++ "\n" ++
  "Wave 2 len: " ++ toString r.len2 ++ "\n" ++
  padRight 15 "I/O" ++ "\tDir.\tDC1    \tDC2    \tIn=Out?\n" ++
  String.join (r.rows.map fun c =>
    padRight 15 c.name ++ "\t" ++ String.singleton c.direction.letter ++ "\t" ++
      Decimal.fixed Report.dutyPlaces c.duty1 ++ "\t" ++ Decimal.fixed Report.dutyPlaces c.duty2 ++
      "\t" ++ toString c.passthrough ++ "\n")

/-- The levels of one signal in two waves over the steps both have, and where they differ. -/
structure Difference where
  name : String
  first : List Bool
  second : List Bool
  xor : List Bool

/-- The differences of named signals; the first unknown name is an error. -/
def differences (t : PinTable) (w1 w2 : Wave) (names : List String) :
    Except Error (List Difference) :=
  let common := min w1.length w2.length
  names.mapM fun n => do
    let s ← t.require n
    let a := (w1.trace s.bit.val).take common
    let b := (w2.trace s.bit.val).take common
    pure ⟨s.name, a, b, List.zipWith (fun x y => x != y) a b⟩

/-- The levels of one named signal. -/
def bitstream (t : PinTable) (w : Wave) (name : String) : Except Error (List Bool) := do
  let s ← t.require name
  pure (w.trace s.bit.val)

/-- The data level one step before each rising clock edge; a rising edge is a high clock level
after a low one, so the first step never is one. -/
def risingSamples : List Bool → List Bool → List Bool
  | c0 :: c1 :: cs, d0 :: d1 :: ds =>
    let rest := risingSamples (c1 :: cs) (d1 :: ds)
    if c1 && !c0 then d0 :: rest else rest
  | _, _ => []

/-- The bits of a serial line: the data signal sampled at every rising edge of the clock signal,
from the step before the edge. -/
def clockedBits (t : PinTable) (w : Wave) (clock data : String) : Except Error (List Bool) := do
  let c ← t.require clock
  let d ← t.require data
  pure (risingSamples (w.trace c.bit.val) (w.trace d.bit.val))

/-- The text of a serial line's bits: `0` and `1` joined by commas. -/
def bitsText (bits : List Bool) : String := ",".intercalate (bits.map fun b => if b then "1" else "0")

end PinWave
