import PinWave.Convert.Pack
import PinWave.Dump.Trace
/-!
# Resampling a dump onto the strobe grid

A dump is resampled into one wave per hardware group. Step `t` of the waves samples the dump at
tick `start + round(t · ratio)`, where the ratio is the strobe period over the dump's tick length
and a half rounds to the even tick; there are `⌊(end - start) / ratio⌋` steps, and more than
2^32 of them are refused. A signal is found in the dump under its name prefixed by the test
bench scope; a signal the dump lacks takes its default level over the whole wave. Signals that
share a bit cannot be resampled when more than one of them is imported.

## Main definitions
* `ImportOptions`.
* `Double.floor`: the whole number at or below a double.
* `roundHalfEven`: rounding a double to a whole number, a half going to the even one.
* `resampleSignal`: one signal resampled into its group's wave.
* `resample`: the waves of a dump.
-/

namespace PinWave

-- Powers of numbers use the core `Pow` instance and literal exponents are typed as naturals, so
-- these definitions elaborate to the same terms whether or not Mathlib's instances are in scope.
attribute [local instance (high)] instPowNat

/-- How a dump is imported. -/
structure ImportOptions where
  /-- The picoseconds of one wave step. -/
  strobe : Float
  /-- Import the inputs only, or inputs and outputs. -/
  inputsOnly : Bool := true
  /-- The test bench scope; by default the dump's outermost scope. -/
  benchName : Option String := none
  /-- The picoseconds of one dump tick; by default the dump's timescale. -/
  timebase : Option Float := none

/-- The metadata key of the dump's tick length. -/
def timebaseKey : String := "VCD_TIMEBASE_PICOSECONDS"

/-- The metadata key of the number of steps. -/
def stepsKey : String := "GLUE_TIMESTEPS"

/-- The most steps a resampling may have. -/
def maxSteps : Float := 4294967296.0

namespace Double

/-- The whole number at or below a double. A double whose exponent is not negative is whole
already; below that the bits under the point are cut off, toward minus infinity. NaN, the
infinities and the zeros are their own floor. -/
def floor (x : Float) : Float :=
  match x.toModel.unpack with
  | .finite s m e _ =>
    if 0 ≤ e then x
    else
      let k := 2 ^ (-e).toNat
      match s with
      | .positive => (m / k).toFloat
      | .negative => -(m / k + if m % k = 0 then 0 else 1).toFloat
  | _ => x

end Double

/-- The whole number nearest to `x`, a half going to the even one. The sign is kept, so a
negative double that rounds to zero gives negative zero; NaN and the infinities are kept. -/
def roundHalfEven (x : Float) : Float :=
  match x.toModel.unpack with
  | .finite s m e _ =>
    if 0 ≤ e then x
    else
      let n := (Decimal.roundHalfEven m (2 ^ (-e).toNat)).toFloat
      match s with
      | .positive => n
      | .negative => -n
  | _ => x

/-- The signals that share a bit with another imported signal: all members of every multiplexed
pin with more than one imported member. -/
def PinTable.importedMux (t : PinTable) (imported : List String) : List String :=
  (t.muxGroups.filter fun m => (m.signals.filter imported.contains).length > 1).flatMap (·.signals)

/-- The ticks sampled by each step. -/
def sampleTicks (len : Nat) (ratio : Float) (start : Nat) : List Nat :=
  (List.range len).map fun t =>
    ((roundHalfEven (t.toFloat * ratio)).toUInt64.toNat + start) % 2 ^ (64 : Nat)

/-- Whether a signal is imported: any signal, or only the inputs. -/
def ImportOptions.imports (o : ImportOptions) (s : Signal) : Bool :=
  !o.inputsOnly || s.direction == .input

/-- The name of a signal in a dump, under the test bench scope when there is one. -/
def scopedName (bench : Option String) (name : String) : String :=
  match bench with
  | some b => b ++ "." ++ name
  | none => name

/-- A wave of `len` zero words for a group, its metadata giving the timebase and the number of
steps. -/
def emptyWave (len : Nat) (strobe timebase : Float) (hw : HwPath) : Wave :=
  let w := Wave.zeros len strobe hw
  { w with metadata := (w.metadata.insert timebaseKey
      (Decimal.Layout.tagged.render timebase)).insert stepsKey (toString len) }

/-- Resamples one signal into its group's wave: the levels its history has at the ticks are ored
into its bit, or its default is staged when the dump lacks it. -/
def resampleSignal (tr : Dump.Trace) (bench : Option String) (ticks : List Nat) (w : Wave)
    (s : Signal) : Wave :=
  match tr.history? (scopedName bench s.name) with
  | some h => { w with vector := orLevels (Wave.bitMask s.bit) w.vector (h.cursorLevels ticks) }
  | none => w.stageAt s.bit s.default

/-- The waves of a dump, one per hardware group in group order. -/
def resample (t : PinTable) (tr : Dump.Trace) (o : ImportOptions) :
    Except Error (List (HwPath × Wave)) := do
  checkStrobe o.strobe
  let timebase := o.timebase.getD tr.timebase
  if !strobeOk timebase then
    throw (.dump ("invalid VCD timebase " ++ Error.numberLayout.render timebase ++ " ps"))
  let bench := o.benchName <|> tr.topScope
  let imported := t.signals.filter o.imports
  let muxed := t.importedMux (imported.map (·.name))
  if !muxed.isEmpty then throw (.multiplexedPins muxed)
  let ratio := o.strobe / timebase
  let steps := Double.floor ((UInt64.ofNat (tr.finish - tr.start)).toFloat / ratio)
  if steps > maxSteps then throw (.invalidStrobe o.strobe)
  let len := steps.toUInt64.toNat
  let ticks := sampleTicks len ratio tr.start
  pure (t.hardware.map fun hw =>
    (hw, ((imported.filter (·.hardware == hw)).foldl (resampleSignal tr bench ticks)
      (emptyWave len o.strobe timebase hw)).commit))

end PinWave
