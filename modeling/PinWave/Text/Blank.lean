/-!
# Blank characters, words and lines

Text read by this library is cut at blanks and at line ends. A blank is a character with the
Unicode `White_Space` property; a word is a maximal run of non-blank characters; a line ends at
a line feed, and a carriage return just before that line feed belongs to the line end.

## Main definitions
* `Text.isBlank`: the `White_Space` property.
* `Text.trim`, `Text.words`, `Text.lines`: trimming, splitting at blanks and at line ends.
-/

namespace PinWave.Text

/-- The characters with the Unicode `White_Space` property. -/
def isBlank (c : Char) : Bool :=
  let n := c.toNat
  (0x09 ≤ n && n ≤ 0x0D) || n == 0x20 || n == 0x85 || n == 0xA0 || n == 0x1680 ||
    (0x2000 ≤ n && n ≤ 0x200A) || n == 0x2028 || n == 0x2029 || n == 0x202F ||
    n == 0x205F || n == 0x3000

/-- Drops blanks at both ends. -/
def trimChars (cs : List Char) : List Char :=
  ((cs.dropWhile isBlank).reverse.dropWhile isBlank).reverse

/-- Drops blanks at both ends of a string. -/
def trim (s : String) : String := String.ofList (trimChars s.toList)

/-- Collects words; `cur` holds the word being read, last character first. -/
def wordsFrom : List Char → List Char → List (List Char)
  | [], cur => if cur.isEmpty then [] else [cur.reverse]
  | c :: cs, cur =>
    if isBlank c then
      if cur.isEmpty then wordsFrom cs [] else cur.reverse :: wordsFrom cs []
    else wordsFrom cs (c :: cur)

/-- The maximal runs of non-blank characters, in order. -/
def words (s : String) : List String := (wordsFrom s.toList []).map String.ofList

/-- Drops one carriage return at the end of a line. -/
def dropReturn (cs : List Char) : List Char :=
  match cs.getLast? with
  | some '\r' => cs.dropLast
  | _ => cs

/-- The lines of a text: pieces between line feeds, each ended line without a carriage return
just before its line feed, and no empty piece after a final line feed. -/
def lineChars (cs : List Char) : List (List Char) :=
  let pieces := cs.splitOn '\n'
  let ended := pieces.dropLast.map dropReturn
  match pieces.getLast? with
  | some last => if last.isEmpty then ended else ended ++ [last]
  | none => ended

/-- The lines of a string. -/
def lines (s : String) : List String := (lineChars s.toList).map String.ofList

@[simp] theorem trimChars_nil : trimChars [] = [] := rfl

theorem wordsFrom_blank {c : Char} (h : isBlank c = true) (cs : List Char) :
    wordsFrom (c :: cs) [] = wordsFrom cs [] := by
  simp [wordsFrom, h]

example : lines "a\r\nb\n" = ["a", "b"] := by decide
example : lines "" = [] := by decide
example : words " a  b\tc " = ["a", "b", "c"] := by decide

end PinWave.Text
