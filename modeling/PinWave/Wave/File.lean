import PinWave.Wave.Vector
import PinWave.Decimal.Layout
/-!
# Wave files

A wave file is the vector line, then `//KEY:value` lines: the strobe period, the hardware group
if the wave has one, and the metadata in order. Reading takes the vector from the first line and
then every `//KEY:value` line: the strobe and hardware keys set those fields, every other key is
metadata; other lines are ignored.

## Main definitions
* `WaveFile.render`: the text of a wave.
* `WaveFile.renderWithProgress`: the text of a wave with the progress calls made writing it.
* `WaveFile.parse`: a wave from text, or the line and reason it cannot be read.
-/

namespace PinWave.WaveFile

/-- The key of the strobe period. -/
def strobeKey : String := "STROBE_PICOSECONDS"

/-- The key of the hardware group. -/
def hardwareKey : String := "HARDWARE"

/-- The strobe period is written so that it always reads back as a double. -/
def strobeLayout : Decimal.Layout := Decimal.Layout.tagged

/-- The text of a wave. -/
def render (w : Wave) : String :=
  VectorLine.encode w.vector ++ "\n" ++
    "//" ++ strobeKey ++ ":" ++ strobeLayout.render w.strobe ++ "\n" ++
    (match w.hardware with
     | some hw => "//" ++ hardwareKey ++ ":" ++ hw.render ++ "\n"
     | none => "") ++
    String.join (w.metadata.entries.map fun (k, v) => "//" ++ k ++ ":" ++ v ++ "\n")

/-- The text of a wave with the progress calls made while its vector line is written. -/
def renderWithProgress (w : Wave) : String × List (Nat × Nat) :=
  let line := VectorLine.encodeWithProgress w.vector
  (line.1 ++ "\n" ++
    "//" ++ strobeKey ++ ":" ++ strobeLayout.render w.strobe ++ "\n" ++
    (match w.hardware with
     | some hw => "//" ++ hardwareKey ++ ":" ++ hw.render ++ "\n"
     | none => "") ++
    String.join (w.metadata.entries.map fun (k, v) => "//" ++ k ++ ":" ++ v ++ "\n"), line.2)

/-- Why a wave file cannot be read. -/
inductive Fault where
  | empty
  | vector (f : VectorLine.Fault)
  | badStrobe (value : String)
  deriving DecidableEq, Inhabited

/-- The text of a fault. -/
def Fault.message : Fault → String
  | .empty => "empty file"
  | .vector f => f.message
  | .badStrobe v => "bad strobe \"" ++ v ++ "\""

/-- A fault with its line number, counted from one. -/
structure ParseError where
  line : Nat
  fault : Fault
  deriving DecidableEq, Inhabited

/-- Splits `KEY:value` at its first colon. -/
def splitKey (body : List Char) : Option (List Char × List Char) :=
  match body.splitOn ':' with
  | [] | [_] => none
  | k :: _ => some (k, body.drop (k.length + 1))

/-- Reads one line after the first; the wave's strobe is `none` until a strobe line. -/
def readLine (w : Wave × Option Float) (n : Nat) (raw : String) :
    Except ParseError (Wave × Option Float) :=
  let line := Text.trimChars raw.toList
  match line with
  | '/' :: '/' :: body =>
    match splitKey body with
    | none => .ok w
    | some (k, v) =>
      let key := String.ofList (Text.trimChars k)
      let value := String.ofList v
      if key = strobeKey then
        match Decimal.readFloat? (String.ofList (Text.trimChars v)) with
        | some s => .ok (w.1, some s)
        | none => .error ⟨n, .badStrobe value⟩
      else if key = hardwareKey then .ok ({ w.1 with hardware := some (HwPath.parse value) }, w.2)
      else .ok ({ w.1 with metadata := w.1.metadata.insert key value }, w.2)
  | _ => .ok w

/-- Reads the numbered lines after the first. -/
def readLines (w : Wave × Option Float) : List (Nat × String) → Except ParseError (Wave × Option Float)
  | [] => .ok w
  | (n, l) :: rest => do readLines (← readLine w n l) rest

/-- Reads a wave file. A missing strobe line leaves the strobe zero. -/
def parse (text : String) : Except ParseError Wave :=
  match Text.lines text with
  | [] => .error ⟨1, .empty⟩
  | first :: rest =>
    match VectorLine.decode first with
    | .error f => .error ⟨1, .vector f⟩
    | .ok vector => do
      let (w, strobe) ← readLines (Wave.make vector 0.0 none, none)
        (rest.zipIdx.map fun (l, i) => (i + 2, l))
      pure { w with strobe := strobe.getD 0.0 }

end PinWave.WaveFile
