import PinWave.Analysis.Compare
import PinWave.Ascii.Basic
import PinWave.Ascii.Text
import PinWave.Cbor
import PinWave.Command.Grammar
import PinWave.Command.Programs
import PinWave.Convert.Files
import PinWave.Convert.Pack
import PinWave.Convert.Resample
import PinWave.Decimal.Layout
import PinWave.Decimal.Read
import PinWave.Decimal.Shortest
import PinWave.Directory
import PinWave.Dump.Header
import PinWave.Dump.History
import PinWave.Dump.Reader
import PinWave.Dump.Trace
import PinWave.Error
import PinWave.Hardware.Path
import PinWave.Main
import PinWave.Pin.Table
import PinWave.Text.Blank
import PinWave.Text.Classes
import PinWave.Text.Quote
import PinWave.Wave.Basic
import PinWave.Wave.File
import PinWave.Wave.Vector
import PinWave.Proofs.Double.Bits
import PinWave.Proofs.Decimal.Frac
import PinWave.Proofs.Decimal.Nearest
import PinWave.Proofs.Decimal.Shortest
import PinWave.Proofs.Text.Lines
import PinWave.Proofs.Decimal.RoundTrip
import PinWave.Proofs.Hardware.Path
import PinWave.Proofs.Wave.Vector
import PinWave.Proofs.Wave.File
import PinWave.Proofs.Wave.Reread
import PinWave.Proofs.Directory
import PinWave.Proofs.Convert.Files
import PinWave.Proofs.Double.Round
import PinWave.Proofs.Double.Arith
import PinWave.Proofs.Dump.History
import PinWave.Proofs.Pin.Table
import PinWave.Proofs.Pin.Groups
import PinWave.Proofs.Wave.Bits
import PinWave.Proofs.Convert.Grid
import PinWave.Proofs.Convert.Resample
import PinWave.Proofs.Convert.Pack
import PinWave.Proofs.Ascii.Signals
import PinWave.Proofs.Convert.AsciiRoundTrip
import PinWave.Proofs.Ascii.Edits
import PinWave.Proofs.Wave.Staging
import PinWave.Proofs.Pin.Grammar
import PinWave.Proofs.Convert.Checks
import PinWave.Proofs.Ascii.Expand
import PinWave.Proofs.Wave.VectorGrammar
import PinWave.Proofs.Ascii.Text
import PinWave.Proofs.Dump.Record
import PinWave.Proofs.Dump.Trace
import PinWave.Proofs.Wave.Force
import PinWave.Proofs.Analysis.Compare
import PinWave.Proofs.Wave.Progress
