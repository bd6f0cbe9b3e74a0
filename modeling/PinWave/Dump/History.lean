/-!
# Signal histories

The history of a one-bit signal is its list of changes, each a tick and the level from that tick
on. A signal is low before its first change. Recording a change at the tick of the last change
replaces that change's level, and recording the level that already holds records nothing.

Looking up the level at a tick bisects the changes for the first one past the tick. On changes
in tick order this finds the last change at or before the tick; on changes out of order the
bisection's steps decide, and they are fixed here: the span halves, the probe is the element
just past the lower half, and the span keeps the probe unless the probe lies past the tick.

A cursor reads levels at ticks that do not decrease: it walks forward through the changes and
never back.

## Main definitions
* `History.record`: records one change.
* `History.levelAt`: the level at a tick.
* `History.cursorLevels`: the levels a cursor reads at a sequence of ticks.
-/

namespace PinWave

/-- The changes of a one-bit signal: ticks with the level from that tick on. -/
structure History where
  changes : Array (Nat × Bool)
  deriving Inhabited

namespace History

/-- No changes: low at every tick. -/
def empty : History := ⟨#[]⟩

/-- Records a change: at the tick of the last change it replaces that level, a level equal to
the last one records nothing, anything else is appended. -/
def record (h : History) (tick : Nat) (level : Bool) : History :=
  match h.changes.back? with
  | some (t, v) =>
    if t = tick then ⟨h.changes.pop.push (tick, level)⟩
    else if v = level then h
    else ⟨h.changes.push (tick, level)⟩
  | none => ⟨h.changes.push (tick, level)⟩

/-- Whether the change at index `i` is at or before `tick`. -/
def atOrBefore (h : History) (tick i : Nat) : Bool :=
  match h.changes[i]? with
  | some (t, _) => decide (t ≤ tick)
  | none => false

/-- Bisection: `base` is the start of the span and `size` its length. -/
def bisect (h : History) (tick : Nat) (base size : Nat) : Nat :=
  if size ≤ 1 then
    if h.atOrBefore tick base then base + 1 else base
  else
    let half := size / 2
    let mid := base + half
    bisect h tick (if h.atOrBefore tick mid then mid else base) (size - half)
termination_by size
decreasing_by omega

/-- The number of leading changes at or before `tick`, found by bisection. -/
def countAtOrBefore (h : History) (tick : Nat) : Nat :=
  if h.changes.size = 0 then 0 else h.bisect tick 0 h.changes.size

/-- The level at a tick: that of the last change counted by `countAtOrBefore`, or low. -/
def levelAt (h : History) (tick : Nat) : Bool :=
  match h.countAtOrBefore tick with
  | 0 => false
  | i + 1 => (h.changes[i]?.map (·.2)).getD false

/-- A reader of levels at ticks that do not decrease: the index of the next change and the
level read last. -/
structure Cursor where
  pos : Nat
  level : Bool

/-- Moves the cursor past every change from its position on that is at or before `tick`. -/
def advance (h : History) (tick : Nat) (c : Cursor) : Cursor :=
  if hp : c.pos < h.changes.size then
    let (t, v) := h.changes[c.pos]
    if t ≤ tick then advance h tick ⟨c.pos + 1, v⟩ else c
  else c
termination_by h.changes.size - c.pos

/-- The levels a fresh cursor reads at the ticks in order. -/
def cursorLevels (h : History) (ticks : List Nat) : List Bool :=
  (ticks.foldl (fun (c, acc) t => let c := h.advance t c; (c, c.level :: acc))
    (⟨0, false⟩, [])).2.reverse

/-- A history of changes given in order. -/
def ofChanges (changes : List (Nat × Bool)) : History := ⟨changes.toArray⟩

@[simp] theorem levelAt_empty (tick : Nat) : empty.levelAt tick = false := by
  simp [levelAt, countAtOrBefore, empty]

end History

end PinWave
