/-!
# ASCII waves

An ASCII wave gives each named signal a string of levels. Each position of the strings is one
edit event rather than one time step, and every edit keeps all signals equally long: a signal
that the edit does not touch holds its last level, and a signal first named by an edit starts
low for all earlier events.

## Main definitions
* `AsciiWave`: named level strings in order of first appearance.
* `AsciiWave.setSignals`, `pulse`, `append`: edits.
* `AsciiWave.expand`: one level per time step, each event lasting a number of steps.
-/

namespace PinWave

/-- Named level strings, in order of first appearance. -/
structure AsciiWave where
  signals : List (String × List Bool)
  deriving DecidableEq, Inhabited

namespace AsciiWave

/-- No signals. -/
def empty : AsciiWave := ⟨[]⟩

/-- The number of events: the length of the longest string. -/
def length (w : AsciiWave) : Nat := w.signals.foldl (fun m s => max m s.2.length) 0

/-- The levels of a signal. -/
def get? (w : AsciiWave) (name : String) : Option (List Bool) :=
  (w.signals.find? (·.1 == name)).map (·.2)

/-- Whether the wave has a signal of this name. -/
def contains (w : AsciiWave) (name : String) : Bool := w.signals.any (·.1 == name)

/-- Sets the levels of a signal: an existing signal keeps its place, a new one goes last. -/
def put (w : AsciiWave) (name : String) (bits : List Bool) : AsciiWave :=
  if w.contains name then ⟨w.signals.map fun s => if s.1 == name then (name, bits) else s⟩
  else ⟨w.signals ++ [(name, bits)]⟩

/-- Changes the levels of a signal, creating it low for every event so far. -/
def modify (w : AsciiWave) (name : String) (f : List Bool → List Bool) : AsciiWave :=
  w.put name (f ((w.get? name).getD (List.replicate w.length false)))

/-- Pads levels to `len` with their last level, or low when empty. -/
def holdTo (len : Nat) (bits : List Bool) : List Bool :=
  bits ++ List.replicate (len - bits.length) (bits.getLast?.getD false)

/-- Pads every signal to the wave's length with its last level. -/
def holdAll (w : AsciiWave) : AsciiWave :=
  let len := w.length
  ⟨w.signals.map fun (n, b) => (n, holdTo len b)⟩

/-- Starts a wave with one event at the same level for every name. -/
def init (names : List String) (value : Bool) : AsciiWave :=
  names.foldl (fun w n => w.put n [value]) empty

/-- A wave of explicit level strings; a later repeated name replaces the earlier one in place,
and shorter strings are held at their last level. -/
def ofTraces (traces : List (String × List Bool)) : AsciiWave :=
  (traces.foldl (fun w (n, b) => w.put n b) empty).holdAll

/-- One event setting several signals; of a repeated name the last level counts. -/
def setSignals (w : AsciiWave) (values : List (String × Bool)) : AsciiWave :=
  let w := w.holdAll
  let len := w.length
  (values.foldl (fun w (n, v) => w.modify n fun b => b.take len ++ [v]) w).holdAll

/-- One event setting one signal. -/
def setSignal (w : AsciiWave) (name : String) (value : Bool) : AsciiWave :=
  w.setSignals [(name, value)]

/-- Drives a signal to the opposite of its current level for `width` events, then back. -/
def pulse (w : AsciiWave) (name : String) (width : Nat) : AsciiWave :=
  (w.holdAll.modify name fun b =>
    let rest := b.getLast?.getD false
    b ++ List.replicate width (!rest) ++ [rest]).holdAll

/-- Appends explicit levels to a signal. -/
def append (w : AsciiWave) (name : String) (bits : List Bool) : AsciiWave :=
  (w.holdAll.modify name (· ++ bits)).holdAll

/-- One level per time step: each event lasts `k` steps, and every signal is held at its last
level to the common length. -/
def expand (w : AsciiWave) (k : Nat) : List (String × List Bool) :=
  let len := w.length * k
  w.signals.map fun (n, b) =>
    let steps := b.flatMap (List.replicate k ·)
    (n, holdTo len steps |>.take len)

theorem length_holdTo (len : Nat) (bits : List Bool) (h : bits.length ≤ len) :
    (holdTo len bits).length = len := by
  simp [holdTo]; omega

end AsciiWave

end PinWave
