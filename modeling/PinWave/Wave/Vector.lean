import PinWave.Wave.Basic
import PinWave.Decimal.Read
/-!
# The vector line

A wave's words are written on one line, separated by commas, each as a decimal number or as `@`
when it equals the word before it. Reading trims the line and each field; an empty line is the
empty vector.

## Main definitions
* `VectorLine.encode`: the line of a vector.
* `VectorLine.decode`: the vector of a line, or why it has none.
* `VectorLine.progressMarks`: the counts at which long vectors report progress.
* `VectorLine.encodeWithProgress`: the line of a vector with the progress calls made writing it.
-/

namespace PinWave.VectorLine

-- Powers of numbers use the core `Pow` instance and literal exponents are typed as naturals, so
-- these definitions elaborate to the same terms whether or not Mathlib's instances are in scope.
attribute [local instance (high)] instPowNat

/-- The field of one word, given the word before it. -/
def field (prev : Option UInt64) (v : UInt64) : String :=
  if prev = some v then "@" else toString v.toNat

/-- The fields of a vector, each word compared with the one before it. -/
def fields : Option UInt64 → List UInt64 → List String
  | _, [] => []
  | prev, v :: vs => field prev v :: fields (some v) vs

/-- The line of a vector: its fields joined by commas. -/
def encode (vs : List UInt64) : String := ",".intercalate (fields none vs)

/-- Why a vector line cannot be read. -/
inductive Fault where
  | leadingRepeat
  | badToken (token : String) (index : Nat)
  deriving DecidableEq, Inhabited

/-- The text of a fault. -/
def Fault.message : Fault → String
  | .leadingRepeat => "vector starts with a repeat token"
  | .badToken tok i => "bad token \"" ++ tok ++ "\" at element " ++ toString i

/-- Reads the trimmed fields from index `i` on, `acc` holding the words read so far, last
first. -/
def readFields (i : Nat) (acc : List UInt64) : List String → Except Fault (List UInt64)
  | [] => .ok acc.reverse
  | tok :: rest =>
    if tok = "@" then
      match acc with
      | [] => .error .leadingRepeat
      | prev :: _ => readFields (i + 1) (prev :: acc) rest
    else
      match Decimal.readWhole? tok (2 ^ (64 : Nat) - 1) with
      | some n => readFields (i + 1) (UInt64.ofNat n :: acc) rest
      | none => .error (.badToken tok i)

/-- Reads a vector line. -/
def decode (line : String) : Except Fault (List UInt64) :=
  let cs := Text.trimChars line.toList
  if cs.isEmpty then .ok []
  else readFields 0 [] ((cs.splitOn ',').map fun f => String.ofList (Text.trimChars f))

/-- Vectors longer than this report progress while written. -/
def progressStep : Nat := 10000

/-- The counts reported while writing a vector of `len` words: every `progressStep` words, and
at the end when `len` is not a multiple of it; nothing for a vector of at most one step. -/
def progressMarks (len : Nat) : List (Nat × Nat) :=
  if len > progressStep then
    (List.range (len / progressStep)).map (fun k => ((k + 1) * progressStep, len)) ++
      (if len % progressStep = 0 then [] else [(len, len)])
  else []

/-- The words from index `i` on, written after the word `prev` onto the text and the calls made
so far: a comma before every word but the first, then its field; when `report` is set, after
every `progressStep`-th word a call with the count written and the `total`. -/
def encodeLoop (report : Bool) (total : Nat) :
    Nat → Option UInt64 → List UInt64 → String × List (Nat × Nat) → String × List (Nat × Nat)
  | _, _, [], acc => acc
  | i, prev, v :: vs, (out, calls) =>
    encodeLoop report total (i + 1) (some v) vs
      ((if i = 0 then out else out ++ ",") ++ field prev v,
        if report && (i + 1) % progressStep == 0 then calls ++ [(i + 1, total)] else calls)

/-- Writes a vector line with the progress calls made while writing it: a vector longer than
`progressStep` words reports from inside the loop, and once more after it when its length is no
multiple of `progressStep`. -/
def encodeWithProgress (vs : List UInt64) : String × List (Nat × Nat) :=
  let report := decide (progressStep < vs.length)
  let r := encodeLoop report vs.length 0 none vs ("", [])
  (r.1, if report && vs.length % progressStep != 0 then r.2 ++ [(vs.length, vs.length)] else r.2)

example : encode [2, 3, 3, 3, 5] = "2,3,@,@,5" := by decide

end PinWave.VectorLine
