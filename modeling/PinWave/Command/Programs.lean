import PinWave.Command.Grammar
import PinWave.Convert.Files
import PinWave.Cbor
/-!
# The command-line programs

Five programs work on the files of a working directory:
* `ascii2glue` packs an ASCII wave into a wave file;
* `gluebits` writes the bits of a serial line in a wave file;
* `gluecmp` compares two wave files, optionally writing the report as a binary object and
  printing the levels of named signals in both files and where they differ;
* `glueedit` forces a signal or sets one bit of a wave file;
* `vcd2glue` resamples a dump into one wave file per hardware group, reading it with the dump
  library the programs are given.

A program ends with status 0, with 1 when a wave file cannot be read, with 2 when its arguments
are refused, and with 101 when a step fails, stating the failure spelled out in full.

## Main definitions
* `Outcome`, `Run`.
* The grammars `ascii2glueArgs`, …, and the runs `ascii2glue`, ….
* `runProgram`: a program by name.
-/

namespace PinWave

/-- The report as a binary object: lengths, then per signal its name, direction, duty cycles
and agreement. -/
def Report.toCbor (r : Report) : Cbor.Item :=
  .map [("len1", .uint r.len1), ("len2", .uint r.len2),
    ("signals", .array (r.rows.map fun c =>
      .map [("name", .text c.name),
        ("direction", .text (match c.direction with | .input => "Input" | .output => "Output")),
        ("duty1", .float c.duty1), ("duty2", .float c.duty2), ("passthrough", .bool c.passthrough)]))]

/-- The lines of one difference: both traces and where they differ. -/
def Difference.lines (d : Difference) : String :=
  d.name ++ "(1)    \t" ++ AsciiWave.levelText d.first ++ "\n" ++
  d.name ++ "(2)    \t" ++ AsciiWave.levelText d.second ++ "\n" ++
  "diff(" ++ d.name ++ ")\t" ++ AsciiWave.levelText d.xor ++ "\n"

end PinWave

namespace PinWave.Command

-- Powers of numbers use the core `Pow` instance and literal exponents are typed as naturals, so
-- these definitions elaborate to the same terms whether or not Mathlib's instances are in scope.
attribute [local instance (high)] instPowNat

/-- How a program ended: status, standard output, the failure stated, and the directory. -/
structure Outcome where
  status : Nat
  stdout : String
  failure : Option String
  dir : Directory

/-- The files a run created or changed, by name. -/
def Outcome.written (o : Outcome) (before : Directory) : List (String × Contents) :=
  (o.dir.changedSince before).mergeSort fun a b => decide (a.1 ≤ b.1)

/-- How a run stops early: its status and the failure stated, if any. -/
structure Stop where
  status : Nat
  failure : Option String

/-- What a run has printed and the directory it works in. -/
structure Session where
  out : String
  dir : Directory

/-- A run of a program: it prints, reads and writes files, and may stop early. -/
abbrev Run := ExceptT Stop (StateM Session)

/-- The statement of a failed step whose error is spelled out as `described`. -/
def failureText (described : String) : String :=
  "called `Result::unwrap()` on an `Err` value: " ++ described

/-- Stops on an error. -/
def failWith {α : Type} (e : Error) : Run α := throw ⟨101, some (failureText e.describe)⟩

/-- The value of a step, or a stop on its error. -/
def orFail {α : Type} : Except Error α → Run α
  | .ok a => pure a
  | .error e => failWith e

/-- Stops with a status and no failure. -/
def exitWith {α : Type} (status : Nat) : Run α := throw ⟨status, none⟩

/-- Prints text. -/
def print (s : String) : Run Unit := modify fun st => { st with out := st.out ++ s }

/-- The working directory. -/
def workDir : Run Directory := do return (← get).dir

/-- Replaces the working directory. -/
def setDir (d : Directory) : Run Unit := modify fun st => { st with dir := d }

/-- Runs a program in a directory. -/
def Run.outcome (r : Run Unit) (d : Directory) : Outcome :=
  let (res, st) := (r.run).run ⟨"", d⟩
  match res with
  | .ok () => ⟨0, st.out, none, st.dir⟩
  | .error s => ⟨s.status, st.out, s.failure, st.dir⟩

/-- A value read as a double; the grammar has checked it. -/
def decimalOf (s : String) : Float := (Decimal.readFloat? s).getD 0.0

/-- A value read as a whole number; the grammar has checked it. -/
def wholeOf (s : String) : Nat := (Decimal.readWhole? s (2 ^ (64 : Nat) - 1)).getD 0

/-- A value read as a signed integer in a range from zero; the grammar has checked it. -/
def rangedOf (s : String) : Nat := (Decimal.readRanged? s (2 ^ (32 : Nat) - 1)).getD 0

/-! ## ascii2glue -/

/-- The arguments of `ascii2glue`. -/
def ascii2glueArgs : Program :=
  ⟨{ name := "ascii2glue",
     params := [{ valueName := "IOSPEC", help := "The IOSpec file path" },
                { valueName := "ASCII", help := "The ASCII wave file path" },
                { valueName := "STROBE_PS", help := "The strobe period (in picoseconds)", kind := .decimal },
                { valueName := "GLUE_OUTPUT", help := "The Glue output file path" }],
     opts := [{ long := "ticks-per-bit", valueName := some "TICKS_PER_BIT",
                help := "Strobes per ASCII character", shown := some "1", kind := .whole (2 ^ (64 : Nat) - 1) }] },
   []⟩

/-- Packs an ASCII wave file into a wave file. -/
def ascii2glue (v : Values) : Run Unit := do
  let t ← orFail (loadPinTable (← workDir) (v.param 0))
  let a ← orFail (loadAscii (← workDir) (v.param 1))
  let ticks := match v.opt? "ticks-per-bit" with
    | some s => wholeOf s
    | none => 1
  let w ← orFail (packAscii t a ticks (decimalOf (v.param 2)))
  setDir (← orFail (writeWaveFile (← workDir) w (v.param 3)))

/-! ## gluebits -/

/-- The arguments of `gluebits`. -/
def gluebitsArgs : Program :=
  ⟨{ name := "gluebits",
     params := [{ valueName := "IOSPEC", help := "The IOSpec file path" },
                { valueName := "GLUE", help := "The glue file path" },
                { valueName := "CLOCK", help := "The clock signal name" },
                { valueName := "DATA", help := "The data signal name" },
                { valueName := "OUTPUT", help := "The bitstream output file path" }],
     opts := [] },
   []⟩

/-- Writes the bits of a serial line of a wave file. -/
def gluebits (v : Values) : Run Unit := do
  let t ← orFail (loadPinTable (← workDir) (v.param 0))
  let some w := readWave? (← workDir) (v.param 1) | exitWith 1
  let (d, _) ← orFail (exportClockedBits t (← workDir) w (v.param 2) (v.param 3) (v.param 4))
  setDir d

/-! ## gluecmp -/

/-- The arguments of `gluecmp`. -/
def gluecmpArgs : Program :=
  ⟨{ name := "gluecmp",
     params := [{ valueName := "IOSPEC", help := "The IOSpec file path" },
                { valueName := "GLUE1", help := "The glue file 1" },
                { valueName := "GLUE2", help := "The glue file 2" }],
     opts := [{ long := "diff", valueName := some "DIFF", help := "Comma-separated signals to diff" },
              { long := "report", valueName := some "REPORT",
                help := "The optional report output path (CBOR)" }] },
   []⟩

/-- Compares two wave files. -/
def gluecmp (v : Values) : Run Unit := do
  let t ← orFail (loadPinTable (← workDir) (v.param 0))
  let d ← workDir
  let (some w1, some w2) := (readWave? d (v.param 1), readWave? d (v.param 2)) | exitWith 1
  let r := compare t w1 w2
  print r.render
  if let some path := v.opt? "report" then
    match (← workDir).write path (.bytes r.toCbor.encode) with
    | .ok d => setDir d
    | .error (.file f) => throw ⟨101, some (failureText f.describe)⟩
    | .error e => failWith e
  if let some names := v.opt? "diff" then
    let names := (names.splitOn ",").map Text.trim
    let ds ← orFail (differences t w1 w2 names)
    print (String.join (ds.map Difference.lines))

/-! ## glueedit -/

/-- The arguments of `glueedit`. -/
def glueeditArgs : Program :=
  ⟨{ name := "glueedit",
     params := [{ valueName := "IOSPEC", help := "The IOSpec file path" },
                { valueName := "GLUE", help := "The glue file path" },
                { valueName := "OUTPUT", help := "The edited glue output path" }],
     opts := [] },
   [{ name := "force", about := some "Force a signal high or low throughout the wave",
      params := [{ valueName := "SIGNAL", help := "The signal name" },
                 { valueName := "VALUE", help := "The value (0 or 1)", kind := .ranged 1 }],
      opts := [] },
    { name := "bit", about := some "Set a single bit at timestep t",
      params := [{ valueName := "T", help := "The timestep", kind := .whole (2 ^ (64 : Nat) - 1) },
                 { valueName := "BIT_POS", help := "The bit position", kind := .ranged (2 ^ (32 : Nat) - 1) },
                 { valueName := "VALUE", help := "The value (0 or 1)", kind := .ranged 1 }],
      opts := [] }]⟩

/-- Applies one edit to a wave file. -/
def glueedit (v : Values) (command : String × Values) : Run Unit := do
  let t ← orFail (loadPinTable (← workDir) (v.param 0))
  let some w := readWave? (← workDir) (v.param 1) | exitWith 1
  let (name, c) := command
  let w ← if name == "force" then orFail (forceSignal t w (c.param 0) (rangedOf (c.param 1) == 1))
    else orFail ((w.setBit (wholeOf (c.param 0)) (rangedOf (c.param 1))
      (rangedOf (c.param 2) == 1)).mapError Error.ofWave)
  setDir (← orFail (writeWaveFile (← workDir) w (v.param 2)))

/-! ## vcd2glue -/

/-- The arguments of `vcd2glue`. -/
def vcd2glueArgs : Program :=
  ⟨{ name := "vcd2glue",
     params := [{ valueName := "IOSPEC", help := "The IOSpec file path" },
                { valueName := "VCD", help := "The input vcd file path" },
                { valueName := "STROBE_PS", help := "The strobe period (in picoseconds)", kind := .decimal },
                { valueName := "OUTPUT_TAG", help := "The output file tag",
                  longHelp := some ("The output file tag.\n\nFiles are written as `\x7btag\x7d_" ++
                    "\x7binterface\x7d.glue`.") }],
     opts := [{ long := "golden", help := "Include outputs (golden pattern) instead of inputs only" },
              { long := "tb-name", valueName := some "TB_NAME",
                help := "The testbench scope name, if not the outermost VCD scope" },
              { long := "vcd-timebase-ps", valueName := some "VCD_TIMEBASE_PS",
                help := "The VCD timebase in picoseconds, if not from `$timescale`", kind := .decimal }] },
   []⟩

/-- Resamples a dump file, read by `reader`, into one wave file per hardware group. -/
def vcd2glue (reader : Dump.Reader) (v : Values) : Run Unit := do
  let t ← orFail (loadPinTable (← workDir) (v.param 0))
  let tr ← orFail (loadTrace reader (← workDir) (v.param 1))
  let o : ImportOptions :=
    ⟨decimalOf (v.param 2), (v.opt? "golden").isNone, v.opt? "tb-name",
      (v.opt? "vcd-timebase-ps").map decimalOf⟩
  let waves ← orFail (resample t tr o)
  let (d, written) := writeWavesInOrder (← workDir) waves (v.param 3)
  setDir d
  let _ ← orFail written

/-! ## Programs by name -/

/-- The grammar and run of a program by name; dumps are read by `reader`. -/
def programs (reader : Dump.Reader) :
    List (String × Program × (Values → Option (String × Values) → Run Unit)) :=
  [("ascii2glue", ascii2glueArgs, fun v _ => ascii2glue v),
   ("gluebits", gluebitsArgs, fun v _ => gluebits v),
   ("gluecmp", gluecmpArgs, fun v _ => gluecmp v),
   ("glueedit", glueeditArgs, fun v c => match c with
     | some c => glueedit v c
     | none => exitWith 2),
   ("vcd2glue", vcd2glueArgs, fun v _ => vcd2glue reader v)]

/-- Runs a program by name on an argument list in a directory, reading dumps with `reader`; none
for an unknown program. -/
def runProgram (reader : Dump.Reader) (bin : String) (args : List String) (d : Directory) :
    Option Outcome :=
  ((programs reader).find? (·.1 == bin)).map fun (_, p, body) =>
    match p.read bin args with
    | .help text => ⟨0, text, none, d⟩
    | .refused => ⟨2, "", none, d⟩
    | .ok v c => (body v c).outcome d

end PinWave.Command
