import PinWave.Text.Blank
/-!
# Hardware paths

A hardware path names one pin group of an instrument by its chassis, module and interface, as
components joined by `/`. Reading a path trims the text, cuts it at every `/` and drops the empty
pieces, so `a//b/` and ` a/b ` name the same group.

## Main definitions
* `HwPath`: the components of a path.
* `HwPath.parse`, `HwPath.render`: reading and writing.
* `HwPath.compare`: components compared in order, a proper prefix first.
-/

namespace PinWave

/-- A hardware path: its components, none of them empty once read from text. -/
structure HwPath where
  parts : List String
  deriving DecidableEq, Inhabited

namespace HwPath

/-- Reads a path: trims the text, cuts at `/` and drops the empty pieces. -/
def parse (s : String) : HwPath :=
  ⟨((Text.trimChars s.toList).splitOn '/').filter (fun p => !p.isEmpty) |>.map String.ofList⟩

/-- The components joined by `/`. -/
def render (p : HwPath) : String := "/".intercalate p.parts

/-- Whether the path has no component. -/
def isEmpty (p : HwPath) : Bool := p.parts.isEmpty

/-- The chassis and module: the first two components joined by `/`. -/
def fpgaName (p : HwPath) : String := "/".intercalate (p.parts.take 2)

/-- The interface: the last component, or the empty string. -/
def innermost (p : HwPath) : String := p.parts.getLast?.getD ""

/-- Lexicographic order of component lists, each component by code points. -/
def compareParts : List String → List String → Ordering
  | [], [] => .eq
  | [], _ :: _ => .lt
  | _ :: _, [] => .gt
  | a :: as, b :: bs =>
    if a < b then .lt else if b < a then .gt else compareParts as bs

/-- Paths in lexicographic order of their components. -/
def compare (p q : HwPath) : Ordering := compareParts p.parts q.parts

instance : ToString HwPath := ⟨render⟩

@[simp] theorem compareParts_self (ps : List String) : compareParts ps ps = .eq := by
  induction ps with
  | nil => rfl
  | cons a as ih => simp [compareParts, ih]

theorem compare_self (p : HwPath) : p.compare p = .eq := compareParts_self p.parts

example : (parse " a//b/ ").parts = ["a", "b"] := by decide
example : (parse "/").parts = [] := by decide

end HwPath

end PinWave
