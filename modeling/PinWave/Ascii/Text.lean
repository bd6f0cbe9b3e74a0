import PinWave.Ascii.Basic
import PinWave.Text.Blank
import PinWave.Text.Quote
/-!
# ASCII wave text

An ASCII wave is written one signal a line, as the name, a colon, a tab and the levels. Reading
trims each line, skips blank lines and `//` comments, cuts a line at its first colon and trims
both parts; every name may appear once.

## Main definitions
* `AsciiWave.render`: the text of a wave.
* `AsciiWave.parse`: a wave from text, or the line and reason it cannot be read.
* `AsciiWave.appendText`: appends levels given as text.
-/

namespace PinWave.AsciiWave

/-- The character of a level. -/
def levelChar (b : Bool) : Char := if b then '1' else '0'

/-- The text of levels. -/
def levelText (bits : List Bool) : String := String.ofList (bits.map levelChar)

/-- The text of a wave: `name:\tlevels` per signal. -/
def render (w : AsciiWave) : String :=
  String.join (w.signals.map fun (n, b) => n ++ ":\t" ++ levelText b ++ "\n")

/-- Why a line of an ASCII wave, or an appended level string, cannot be read. -/
inductive Fault where
  | noColon (line : String)
  | emptyName
  | badLevel (c : Char) (name : String)
  | badLevelIn (c : Char) (name : String)
  | duplicate (name : String)
  deriving DecidableEq, Inhabited

/-- The text of a fault. -/
def Fault.message : Fault → String
  | .noColon line => "no ':' in \"" ++ line ++ "\""
  | .emptyName => "empty signal name"
  | .badLevel c name => "bad character " ++ Text.quoteChar c ++ " for " ++ name
  | .badLevelIn c name => "bad character " ++ Text.quoteChar c ++ " in wave for " ++ name
  | .duplicate name => "duplicate signal " ++ name

/-- A fault with its line number: counted from one in a text, zero for appended levels. -/
structure ParseError where
  line : Nat
  fault : Fault
  deriving DecidableEq, Inhabited

/-- The first character that is not a level. -/
def firstNonLevel (cs : List Char) : Option Char := cs.find? fun c => c != '0' && c != '1'

/-- The levels of a text of `0` and `1`. -/
def levelsOf (cs : List Char) : List Bool := cs.map (· == '1')

/-- Reads one trimmed, nonblank, non-comment line into the wave. -/
def readLine (w : AsciiWave) (line : List Char) : Except Fault AsciiWave :=
  match line.splitOn ':' with
  | [] | [_] => .error (.noColon (String.ofList line))
  | k :: _ =>
    let name := String.ofList (Text.trimChars k)
    let bits := Text.trimChars (line.drop (k.length + 1))
    if name.isEmpty then .error .emptyName
    else match firstNonLevel bits with
      | some c => .error (.badLevel c name)
      | none =>
        if w.contains name then .error (.duplicate name)
        else .ok (w.put name (levelsOf bits))

/-- Reads numbered lines in order. -/
def readLines (w : AsciiWave) : List (Nat × String) → Except ParseError AsciiWave
  | [] => .ok w
  | (n, raw) :: rest =>
    let line := Text.trimChars raw.toList
    match line with
    | [] => readLines w rest
    | '/' :: '/' :: _ => readLines w rest
    | _ =>
      match readLine w line with
      | .ok w' => readLines w' rest
      | .error f => .error ⟨n, f⟩

/-- Reads an ASCII wave; strings of unequal length are kept as they are. -/
def parse (text : String) : Except ParseError AsciiWave :=
  readLines empty ((Text.lines text).zipIdx.map fun (l, i) => (i + 1, l))

/-- Appends levels given as text to a signal; a character other than `0` or `1` is refused. -/
def appendText (w : AsciiWave) (name bits : String) : Except ParseError AsciiWave :=
  match firstNonLevel bits.toList with
  | some c => .error ⟨0, .badLevelIn c name⟩
  | none => .ok (w.append name (levelsOf bits.toList))

end PinWave.AsciiWave
