import PinWave.Convert.Resample
import PinWave.Directory
/-!
# Reading and writing files

The file-level operations over a working directory: reading a pin table, a dump, an ASCII wave
or a wave file, and writing wave files. A wave file that cannot be read gives no wave rather than
an error, and a wave is written only with a valid strobe period. A resampling writes one file per
hardware group, named by a tag and the group's interface.

## Main definitions
* `loadPinTable`, `loadTrace`, `loadAscii`, `readWaveFile`, `readWave?`.
* `writeWaveFile`, `waveFileName`, `writeWavesInOrder`, `writeWaves`, `exportClockedBits`.
-/

namespace PinWave

/-- Reads and parses a pin table file. -/
def loadPinTable (d : Directory) (path : String) : Except Error PinTable := do
  let text ← d.readText path
  match PinTable.parse text with
  | .ok t => pure t
  | .error e => throw (.pinTable e)

/-- Reads a dump file with the dump library `reader`. -/
def loadTrace (reader : Dump.Reader) (d : Directory) (path : String) : Except Error Dump.Trace := do
  let text ← d.readText path
  match Dump.Trace.ofText reader text with
  | .ok tr => pure tr
  | .error r => throw (.dump r)

/-- Reads and parses an ASCII wave file. -/
def loadAscii (d : Directory) (path : String) : Except Error AsciiWave := do
  let text ← d.readText path
  match AsciiWave.parse text with
  | .ok a => pure a
  | .error e => throw (.ascii e)

/-- Reads and parses a wave file. -/
def readWaveFile (d : Directory) (path : String) : Except Error Wave := do
  let text ← d.readText path
  match WaveFile.parse text with
  | .ok w => pure w
  | .error e => throw (.waveFile e)

/-- A wave file's wave, or none when it cannot be read. -/
def readWave? (d : Directory) (path : String) : Option Wave := (readWaveFile d path).toOption

/-- Writes a wave file; the strobe period must be valid. -/
def writeWaveFile (d : Directory) (w : Wave) (path : String) : Except Error Directory := do
  checkStrobe w.strobe
  d.write path (.text (WaveFile.render w))

/-- The file of one hardware group: the tag, an underscore, the group's interface, `.glue`. -/
def waveFileName (tag : String) (hw : HwPath) : String := tag ++ "_" ++ hw.innermost ++ ".glue"

/-- Writes one file per wave, in order, after checking every strobe period. A write that fails
stops the ones after it, and the files written before it stay: answers the directory as it is
left, and either the names written with the progress reports of each group, or the failure. -/
def writeWavesInOrder (d : Directory) (waves : List (HwPath × Wave)) (tag : String) :
    Directory × Except Error (List String × List (HwPath × Nat × Nat)) :=
  match waves.forM fun (_, w) => checkStrobe w.strobe with
  | .error e => (d, .error e)
  | .ok () => go d [] [] waves
where
  /-- Writes the remaining waves after those already named. -/
  go (d : Directory) (names : List String) (marks : List (HwPath × Nat × Nat)) :
      List (HwPath × Wave) → Directory × Except Error (List String × List (HwPath × Nat × Nat))
    | [] => (d, .ok (names, marks))
    | (hw, w) :: rest =>
      let name := waveFileName tag hw
      match d.write name (.text (WaveFile.render w)) with
      | .error e => (d, .error e)
      | .ok d => go d (names ++ [name])
          (marks ++ (VectorLine.progressMarks w.length).map fun (a, b) => (hw, a, b)) rest

/-- Writes one file per wave, after checking every strobe period. Answers the directory, the
names written, and the progress reports of each group, or the first failure. -/
def writeWaves (d : Directory) (waves : List (HwPath × Wave)) (tag : String) :
    Except Error (Directory × List String × List (HwPath × Nat × Nat)) :=
  let (d, r) := writeWavesInOrder d waves tag
  r.map fun (names, marks) => (d, names, marks)

/-- Writes the bits of a serial line to a file, and answers them. -/
def exportClockedBits (t : PinTable) (d : Directory) (w : Wave) (clock data path : String) :
    Except Error (Directory × List Bool) := do
  let bits ← clockedBits t w clock data
  let d ← d.write path (.text (bitsText bits))
  pure (d, bits)

end PinWave
