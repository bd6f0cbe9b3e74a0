import PinWave.Pin.Table
import PinWave.Wave.File
import PinWave.Ascii.Text
import PinWave.Text.Quote
/-!
# Errors

Every failure of the library, as a cause with the data that explains it. `Error.message` is the
text a user reads; `Error.describe` spells the cause out field by field, as a program that stops
on an unexpected failure reports it.

## Main definitions
* `FileFault`: why a file cannot be read or written.
* `Error`, `Error.message`, `Error.describe`.
-/

namespace PinWave

/-- Why a file cannot be opened, read or written. -/
inductive FileFault where
  | notFound
  | isDirectory
  | notDirectory
  | nameTooLong
  deriving DecidableEq, Inhabited

namespace FileFault

/-- The system's number of the fault. -/
def code : FileFault → Nat
  | .notFound => 2
  | .isDirectory => 21
  | .notDirectory => 20
  | .nameTooLong => 36

/-- The system's text of the fault. -/
def text : FileFault → String
  | .notFound => "No such file or directory"
  | .isDirectory => "Is a directory"
  | .notDirectory => "Not a directory"
  | .nameTooLong => "File name too long"

/-- The kind of the fault. -/
def kind : FileFault → String
  | .notFound => "NotFound"
  | .isDirectory => "IsADirectory"
  | .notDirectory => "NotADirectory"
  | .nameTooLong => "InvalidFilename"

/-- The text of a fault with its number. -/
def message (f : FileFault) : String := f.text ++ " (os error " ++ toString f.code ++ ")"

end FileFault

/-- A record spelled out: its name, then its fields as `field: value` between braces. -/
def spellRecord (name : String) (fields : List (String × String)) : String :=
  name ++ " \x7b " ++ ", ".intercalate (fields.map fun (k, v) => k ++ ": " ++ v) ++ " \x7d"

/-- A fault spelled out field by field. -/
def FileFault.describe (f : FileFault) : String :=
  spellRecord "Os" [("code", toString f.code), ("kind", f.kind), ("message", Text.quoteString f.text)]

/-- A failure of the library. -/
inductive Error where
  | file (f : FileFault)
  | pinTable (e : PinTable.ParseError)
  | waveFile (e : WaveFile.ParseError)
  | ascii (e : AsciiWave.ParseError)
  | unknownSignal (name : String)
  | timestepOutOfRange (t len : Nat)
  | bitOutOfRange (bit : Nat)
  | hardwareMismatch (signal : String) (expected found : HwPath)
  | ambiguousMux (hardware : HwPath) (bit : Nat) (signals : List String)
  | multiplexedPins (signals : List String)
  | noSignals
  | noHardware
  | invalidStrobe (strobe : Float)
  | dump (reason : String)
  deriving Inhabited

namespace Error

/-- The error of a refused wave edit. -/
def ofWave : Wave.Fault → Error
  | .bitOutOfRange b => .bitOutOfRange b
  | .timestepOutOfRange t len => .timestepOutOfRange t len

/-- Numbers in messages are written in plain decimal. -/
def numberLayout : Decimal.Layout := Decimal.Layout.plain

/-- The text a user reads. -/
def message : Error → String
  | .file f => "IO error: " ++ f.message
  | .pinTable e => "iospec line " ++ toString e.line ++ ": " ++ e.fault.message
  | .waveFile e => "glue file line " ++ toString e.line ++ ": " ++ e.fault.message
  | .ascii e => "ascii wave line " ++ toString e.line ++ ": " ++ e.fault.message
  | .unknownSignal n => "signal " ++ n ++ " is not in the iospec"
  | .timestepOutOfRange t len =>
    "timestep " ++ toString t ++ " out of range for wave of length " ++ toString len
  | .bitOutOfRange b => "bit position " ++ toString b ++ " does not fit in a glue vector element"
  | .hardwareMismatch s e f => "signal " ++ s ++ " belongs to " ++ f.render ++ ", expected " ++ e.render
  | .ambiguousMux hw b ss =>
    "multiplexed pin " ++ hw.render ++ "[" ++ toString b ++
      "] is driven by more than one signal: " ++ ", ".intercalate ss
  | .multiplexedPins ss => "multiplexed pins are not supported for VCD import: " ++ ", ".intercalate ss
  | .noSignals => "no signals to convert"
  | .noHardware => "wave has no hardware group"
  | .invalidStrobe x => "invalid strobe period " ++ numberLayout.render x ++ " ps"
  | .dump r => "VCD error: " ++ r

/-- A list of names, each quoted, in brackets. -/
def describeNames (ns : List String) : String := "[" ++ ", ".intercalate (ns.map Text.quoteString) ++ "]"

/-- The error spelled out field by field. -/
def describe : Error → String
  | .file f => "Io(" ++ f.describe ++ ")"
  | .pinTable e =>
    spellRecord "IoSpecFormat" [("line", toString e.line), ("reason", Text.quoteString e.fault.message)]
  | .waveFile e =>
    spellRecord "GlueFormat" [("line", toString e.line), ("reason", Text.quoteString e.fault.message)]
  | .ascii e =>
    spellRecord "AsciiFormat" [("line", toString e.line), ("reason", Text.quoteString e.fault.message)]
  | .unknownSignal n => "UnknownSignal(" ++ Text.quoteString n ++ ")"
  | .timestepOutOfRange t len =>
    spellRecord "TimestepOutOfRange" [("t", toString t), ("len", toString len)]
  | .bitOutOfRange b => "BitOutOfRange(" ++ toString b ++ ")"
  | .hardwareMismatch s e f =>
    spellRecord "HardwareMismatch"
      [("signal", Text.quoteString s), ("expected", e.render), ("found", f.render)]
  | .ambiguousMux hw b ss =>
    spellRecord "AmbiguousMux"
      [("hardware", hw.render), ("bit_pos", toString b), ("signals", describeNames ss)]
  | .multiplexedPins ss => spellRecord "MultiplexedPins" [("signals", describeNames ss)]
  | .noSignals => "NoSignals"
  | .noHardware => "NoHardware"
  | .invalidStrobe x => "InvalidStrobe(" ++ Decimal.Layout.tagged.render x ++ ")"
  | .dump r => "Vcd(" ++ Text.quoteString r ++ ")"

end Error

end PinWave
