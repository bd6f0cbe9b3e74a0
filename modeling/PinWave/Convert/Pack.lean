import PinWave.Analysis.Compare
/-!
# Packing and unpacking level traces

Named level traces of the signals of one hardware group are packed into a wave: the wave is as
long as the longest trace, a shorter trace holds its last level, and a signal of the group that
no trace names takes its default level, unless it shares its bit with other signals. The
reverse gives the trace of every signal a wave carries, optionally over a window of time.

## Main definitions
* `strobeOk`, `checkStrobe`: the strobe periods a wave may have.
* `pack`, `packAscii`: traces or an ASCII wave to a wave.
* `signalTraces`, `toAscii`, `forceSignal`.
-/

namespace PinWave

/-- A strobe period is a finite number of picoseconds above zero. -/
def strobeOk (strobe : Float) : Bool := strobe.isFinite && 0.0 < strobe

/-- Refuses a strobe period that is not a finite number above zero. -/
def checkStrobe (strobe : Float) : Except Error Unit :=
  if strobeOk strobe then .ok () else .error (.invalidStrobe strobe)

/-- Ors a bit into every word where the levels are high; levels past the end count low. -/
def orLevels (bit : UInt64) : List UInt64 → List Bool → List UInt64
  | v :: vs, b :: bs => (if b then v ||| bit else v) :: orLevels bit vs bs
  | vs, [] => vs
  | [], _ => []

/-- Refuses a multiplexed pin that more than one present signal drives. -/
def checkMux (t : PinTable) (present : List String) : Except Error Unit :=
  t.muxGroups.forM fun m =>
    let hits := m.signals.filter present.contains
    if hits.length > 1 then .error (.ambiguousMux m.hardware m.bit.val hits) else .ok ()

/-- Packs named traces into one wave. Names the table lacks are skipped; the others must all
belong to the group of the first. -/
def pack (t : PinTable) (traces : List (String × List Bool)) (strobe : Float) :
    Except Error Wave := do
  checkStrobe strobe
  let known := traces.filterMap fun (n, tr) => (t.find? n).map (·, tr)
  let hw ← match known.head? with
    | some (s, _) => pure s.hardware
    | none => throw .noSignals
  if let some (s, _) := known.find? (·.1.hardware != hw) then
    throw (.hardwareMismatch s.name hw s.hardware)
  let present := known.map (·.1.name)
  checkMux t present
  let len := known.foldl (fun m (_, tr) => max m tr.length) 0
  let vector := known.foldl (fun vs (s, tr) =>
    orLevels (Wave.bitMask s.bit) vs (AsciiWave.holdTo len tr)) (List.replicate len 0)
  let w := Wave.make vector strobe (some hw)
  let w := (t.groupSignals hw).foldl (fun w s =>
    if present.contains s.name || (t.muxGroupOf? s.name).isSome then w
    else w.stageAt s.bit s.default) w
  pure w.commit

/-- Packs an ASCII wave, each event lasting `ticksPerBit` steps (at least one). -/
def packAscii (t : PinTable) (a : AsciiWave) (ticksPerBit : Nat) (strobe : Float) :
    Except Error Wave :=
  pack t (a.expand (max ticksPerBit 1)) strobe

/-- The step index of a time in picoseconds: the quotient by the strobe, at least zero, whole,
and at most the wave's length. -/
def stepIndex (w : Wave) (x : Float) : Nat :=
  let q := x / w.strobe
  let q := if q > 0.0 then q else 0.0
  min q.toUInt64.toNat w.length

/-- The traces of the signals a wave carries, limited to the steps of a window `[start, end)`
when given and the strobe is above zero. -/
def signalTraces (t : PinTable) (w : Wave) (window : Option (Float × Float)) :
    List (String × List Bool) :=
  let (lo, hi) := match window with
    | some (s, e) => if w.strobe > 0.0 then (stepIndex w s, stepIndex w e) else (0, w.length)
    | none => (0, w.length)
  (t.waveSignals w).map fun s => (s.name, ((w.trace s.bit.val).take (max hi lo)).drop lo)

/-- The ASCII wave of the signals a wave carries, one event per step. -/
def toAscii (t : PinTable) (w : Wave) : AsciiWave := AsciiWave.ofTraces (signalTraces t w none)

/-- Forces one signal to a level over the whole wave; the signal must belong to the wave's group
when the wave has one. -/
def forceSignal (t : PinTable) (w : Wave) (name : String) (value : Bool) : Except Error Wave := do
  let s ← t.require name
  if let some hw := w.hardware then
    if hw != s.hardware then throw (.hardwareMismatch s.name hw s.hardware)
  pure (w.stageAt s.bit value).commit

end PinWave
