import PinWave.Hardware.Path
import PinWave.Decimal.Read
/-!
# Pin tables

A pin table says which named signal drives or reads which bit of which hardware group. Its text
has one entry per line: `HARDWARE <path> BEGIN` opens a group, `END` closes it, and
`name,I|O,bit[,default]` inside a group adds a signal. Blank lines and lines starting with `//`
are skipped. Signals sharing one bit of one group form a multiplexed pin.

## Main definitions
* `Direction`, `Signal`, `MuxGroup`, `PinTable`.
* `PinTable.parse`: reads the text, or says at which line and why it cannot.
* `PinTable.find?`, `PinTable.groupSignals`, `PinTable.width`, `PinTable.muxGroupOf?`: queries.
-/

namespace PinWave

/-- Whether a signal is driven into the device or read from it. -/
inductive Direction where
  | input
  | output
  deriving DecidableEq, Inhabited

/-- The letter of a direction in a pin table. -/
def Direction.letter : Direction → Char
  | .input => 'I'
  | .output => 'O'

/-- One signal of a pin table. `default` is its level when a source trace lacks it. -/
structure Signal where
  name : String
  direction : Direction
  bit : Fin 64
  default : Bool
  hardware : HwPath
  deriving DecidableEq, Inhabited

/-- Two or more signals sharing one bit of one hardware group. -/
structure MuxGroup where
  hardware : HwPath
  bit : Fin 64
  signals : List String
  deriving DecidableEq, Inhabited

/-- A read pin table: signals in file order, hardware groups in order of first appearance with
their members in file order, and the multiplexed pins. -/
structure PinTable where
  signals : List Signal
  groups : List (HwPath × List String)
  muxGroups : List MuxGroup
  deriving Inhabited

namespace PinTable

/-- Why a line of a pin table cannot be read. -/
inductive Fault where
  | hardwareLine
  | emptyHardware
  | outsideGroup (line : String)
  | fieldCount (line : String)
  | emptyName
  | unknownDirection (given name : String)
  | badBit (given name : String)
  | bitTooHigh (bit : Nat) (name : String)
  | badDefault (given name : String)
  | duplicate (name : String)
  deriving DecidableEq, Inhabited

/-- The text of a fault. -/
def Fault.message : Fault → String
  | .hardwareLine => "expected HARDWARE <path> BEGIN"
  | .emptyHardware => "empty hardware path"
  | .outsideGroup line => "line \"" ++ line ++ "\" has no hardware associated with it"
  | .fieldCount line => "expected name,I|O,position[,default], got \"" ++ line ++ "\""
  | .emptyName => "empty signal name"
  | .unknownDirection d name => "unknown direction \"" ++ d ++ "\" for " ++ name
  | .badBit given name => "bad bit position \"" ++ given ++ "\" for " ++ name
  | .bitTooHigh bit name => "bit position " ++ toString bit ++ " of " ++ name ++ " exceeds 63"
  | .badDefault given name => "bad default value \"" ++ given ++ "\" for " ++ name
  | .duplicate name => "duplicate signal " ++ name

/-- A fault with its line number, counted from one. -/
structure ParseError where
  line : Nat
  fault : Fault
  deriving DecidableEq, Inhabited

/-- Reads the direction field. -/
def readDirection (d : String) : Option Direction :=
  if d = "I" then some .input else if d = "O" then some .output else none

/-- Reads the default field: absent or empty is low, otherwise a byte that is 0 or 1. -/
def readDefault (given : Option String) (name : String) : Except Fault Bool :=
  match given with
  | none => .ok false
  | some "" => .ok false
  | some t =>
    match Decimal.readWhole? t 255 with
    | some 0 => .ok false
    | some 1 => .ok true
    | _ => .error (.badDefault t name)

/-- Reads a signal line `name,I|O,bit[,default]` of the group `hw`; fields are trimmed. -/
def readSignal (line : String) (hw : HwPath) : Except Fault Signal :=
  let fields := (line.toList.splitOn ',').map fun f => String.ofList (Text.trimChars f)
  match fields with
  | name :: d :: b :: rest =>
    if name.isEmpty then .error .emptyName else
    match readDirection d with
    | none => .error (.unknownDirection d name)
    | some dir =>
      match Decimal.readWhole? b 4294967295 with
      | none => .error (.badBit b name)
      | some n =>
        if h : n < 64 then
          (readDefault rest.head? name).map fun dflt => ⟨name, dir, ⟨n, h⟩, dflt, hw⟩
        else .error (.bitTooHigh n name)
  | _ => .error (.fieldCount line)

/-- The state while reading: signals and groups so far, and the open group. -/
structure Reading where
  signals : List Signal
  groups : List (HwPath × List String)
  current : Option HwPath

/-- Adds a group at the end unless it is already there. -/
def openGroup (groups : List (HwPath × List String)) (hw : HwPath) :
    List (HwPath × List String) :=
  if groups.any (·.1 == hw) then groups else groups ++ [(hw, [])]

/-- Appends a member to a group. -/
def addMember (groups : List (HwPath × List String)) (hw : HwPath) (name : String) :
    List (HwPath × List String) :=
  groups.map fun g => if g.1 == hw then (g.1, g.2 ++ [name]) else g

/-- Reads one trimmed, nonblank, non-comment line. -/
def readLine (st : Reading) (line : String) : Except Fault Reading :=
  let toks := Text.words line
  if toks.head? = some "HARDWARE" then
    match toks with
    | [_, p, "BEGIN"] =>
      let hw := HwPath.parse p
      if hw.isEmpty then .error .emptyHardware
      else .ok { st with groups := openGroup st.groups hw, current := some hw }
    | _ => .error .hardwareLine
  else if line = "END" then .ok { st with current := none }
  else
    match st.current with
    | none => .error (.outsideGroup line)
    | some hw => do
      let sig ← readSignal line hw
      if st.signals.any (·.name == sig.name) then throw (.duplicate sig.name)
      pure { st with signals := st.signals ++ [sig], groups := addMember st.groups hw sig.name }

/-- Reads numbered lines in order. -/
def readLines (st : Reading) : List (Nat × String) → Except ParseError Reading
  | [] => .ok st
  | (n, raw) :: rest =>
    let line := Text.trim raw
    if line.isEmpty || line.startsWith "//" then readLines st rest
    else
      match readLine st line with
      | .ok st' => readLines st' rest
      | .error f => .error ⟨n, f⟩

/-- The signal with this name. -/
def findIn (signals : List Signal) (name : String) : Option Signal :=
  signals.find? (·.name == name)

/-- Members sharing a bit, bits in order of first appearance. -/
def byBit (signals : List Signal) : List String → List (Fin 64 × List String) :=
  List.foldl (fun acc n =>
    match findIn signals n with
    | none => acc
    | some s =>
      if acc.any (·.1 == s.bit) then acc.map fun e => if e.1 == s.bit then (e.1, e.2 ++ [n]) else e
      else acc ++ [(s.bit, [n])]) []

/-- The multiplexed pins: per group in order, per bit in order of first appearance, the bits
with more than one member. -/
def findMuxGroups (signals : List Signal) (groups : List (HwPath × List String)) :
    List MuxGroup :=
  groups.flatMap fun (hw, names) =>
    (byBit signals names).filterMap fun (b, members) =>
      if members.length > 1 then some ⟨hw, b, members⟩ else none

/-- Reads a pin table. -/
def parse (text : String) : Except ParseError PinTable := do
  let st ← readLines ⟨[], [], none⟩ ((Text.lines text).zipIdx.map fun (l, i) => (i + 1, l))
  pure ⟨st.signals, st.groups, findMuxGroups st.signals st.groups⟩

/-- The signal with this name. -/
def find? (t : PinTable) (name : String) : Option Signal := findIn t.signals name

/-- The signals of the inputs, in file order. -/
def inputs (t : PinTable) : List Signal := t.signals.filter (·.direction == .input)

/-- The signals of the outputs, in file order. -/
def outputs (t : PinTable) : List Signal := t.signals.filter (·.direction == .output)

/-- The hardware groups in order of first appearance. -/
def hardware (t : PinTable) : List HwPath := t.groups.map (·.1)

/-- The signals of a group, in file order; none for a group the table lacks. -/
def groupSignals (t : PinTable) (hw : HwPath) : List Signal :=
  match t.groups.find? (·.1 == hw) with
  | some (_, names) => names.filterMap t.find?
  | none => []

/-- The bits a vector word of the group needs: one past its highest signal bit. -/
def width (t : PinTable) (hw : HwPath) : Nat :=
  (t.groupSignals hw).foldl (fun m s => max m (s.bit.val + 1)) 0

/-- The multiplexed pin a signal belongs to. -/
def muxGroupOf? (t : PinTable) (name : String) : Option MuxGroup :=
  t.muxGroups.find? (·.signals.contains name)

end PinTable

end PinWave
