import PinWave.Dump.Reader
import PinWave.Dump.History
/-!
# Dump traces

A trace holds the history of every one-bit signal of a dump, named by its scopes and its
variable name joined by dots; a variable of width `n > 1` gives the signals `name[n-1]` down to
`name[0]`. It also holds the first and the last tick given, the picoseconds of one tick, and the
outermost scope.

A vector change sets the bits of its variable from the most significant one down: when it gives
fewer levels than the width, the missing leading levels are low, and when it gives more, the
leading ones are used. A level other than `1` is low.

The header and the changes come from the dump library (`Reader`): the trace is built from what it
reads (`Trace.ofParsed`), and a refusal of either of its passes is the dump's failure.

## Main definitions
* `Trace`, `Trace.ofParsed`, `Trace.ofText`: the trace of a dump.
* `Trace.history?`: the history of a signal.
-/

namespace PinWave.Dump

/-- The signals of a dump with their histories, its tick range, timebase and outermost scope. -/
structure Trace where
  signals : List (String × History)
  start : Nat
  finish : Nat
  timebase : Float
  topScope : Option String
  deriving Inhabited

/-- Where the levels of an identifier code go: a signal index, the position of the bit from the
most significant one, and the variable's width. -/
structure Target where
  signal : Nat
  offset : Nat
  width : Nat

/-- The signals and targets collected from the header so far. -/
structure Layout where
  names : Array String
  targets : List (Nat × List Target)

namespace Layout

/-- The index of a signal name, adding it if new. -/
def indexOf (l : Layout) (name : String) : Layout × Nat :=
  match l.names.idxOf? name with
  | some i => (l, i)
  | none => ({ l with names := l.names.push name }, l.names.size)

/-- Adds a target to an identifier code. -/
def addTarget (l : Layout) (code : Nat) (t : Target) : Layout :=
  if l.targets.any (·.1 == code) then
    { l with targets := l.targets.map fun e => if e.1 == code then (e.1, e.2 ++ [t]) else e }
  else { l with targets := l.targets ++ [(code, [t])] }

/-- Adds the signals of one variable with the full name `name`. -/
def addVar (l : Layout) (name : String) (size code : Nat) : Layout :=
  if size = 1 then
    let (l, i) := l.indexOf name
    l.addTarget code ⟨i, 0, 1⟩
  else
    (List.range size).foldl (fun l b =>
      let (l, i) := l.indexOf (name ++ "[" ++ toString (size - 1 - b) ++ "]")
      l.addTarget code ⟨i, b, size⟩) l

/-- Adds every variable of the entries under the scope path `path`. -/
def addItems (l : Layout) (path : List String) : List Item → Layout
  | [] => l
  | .var size code ref :: rest =>
    addItems (l.addVar (".".intercalate (path ++ [ref])) size code) path rest
  | .scope name children :: rest => addItems (addItems l (path ++ [name]) children) path rest
  | .other :: rest => addItems l path rest

end Layout

/-- The level of bit `offset` of a variable of width `width` set to `bits`. -/
def levelOf (bits : List UInt8) (t : Target) : Bool :=
  let pad := t.width - bits.length
  decide (t.offset ≥ pad) && bits[t.offset - pad]? == some 49

/-- The state while reading changes: histories, first tick and current tick. -/
structure Reading where
  histories : Array History
  first : Option Nat
  current : Option Nat

/-- Applies one change. -/
def Reading.apply (targets : List (Nat × List Target)) (r : Reading) : Change → Reading
  | .tick t => { r with first := r.first <|> some t, current := some t }
  | .levels code bits =>
    match targets.find? (·.1 == code) with
    | none => r
    | some (_, ts) =>
      let tick := r.current.getD 0
      { r with histories := ts.foldl (fun hs t =>
          hs.modify t.signal (·.record tick (levelOf bits t))) r.histories }

/-- The trace of a read header and its value changes. A dump without a timescale has one
picosecond per tick. -/
def Trace.ofParsed (header : Header) (changes : List Change) : Trace :=
  let layout := Layout.addItems ⟨#[], []⟩ [] header.items
  let r := changes.foldl (Reading.apply layout.targets)
    ⟨Array.replicate layout.names.size History.empty, none, none⟩
  let timebase := match header.timescale with
    | some (n, u) => n.toFloat * u.picoseconds
    | none => 1.0
  ⟨layout.names.toList.zip r.histories.toList, r.first.getD 0, r.current.getD 0, timebase,
    header.topScope⟩

/-- The trace of a dump text, read by `reader`: the header first, then the changes. -/
def Trace.ofText (reader : Reader) (text : String) : Except String Trace := do
  let header ← reader.header text
  let changes ← reader.changes text
  pure (Trace.ofParsed header changes)

/-- The history of a signal. -/
def Trace.history? (tr : Trace) (name : String) : Option History :=
  (tr.signals.find? (·.1 == name)).map (·.2)

end PinWave.Dump
