import PinWave.Text.Classes
/-!
# Quoted text

Characters and strings are quoted for messages the way a reader can type them back: a backslash
before the quote, the backslash itself, and the common control characters (`\0`, `\t`, `\r`,
`\n`), and `\u{…}` with lowercase hexadecimal for every other character that is not printable,
that combines with the character before it, or that renders as nothing (`Text.isHidden`).

## Main definitions
* `Text.quoteChar`, `Text.quoteString`.
-/

namespace PinWave.Text

/-- The lowercase hexadecimal digits of a number. -/
def hexDigits (n : Nat) : List Char := Nat.toDigits 16 n

/-- One character inside quotes of kind `q`. -/
def escapeChar (q : Char) (c : Char) : List Char :=
  if c = '\x00' then ['\\', '0']
  else if c = '\t' then ['\\', 't']
  else if c = '\r' then ['\\', 'r']
  else if c = '\n' then ['\\', 'n']
  else if c = '\\' || c = q then ['\\', c]
  else if isHidden c then ['\\', 'u', '{'] ++ hexDigits c.toNat ++ ['}']
  else [c]

/-- A character between single quotes. -/
def quoteChar (c : Char) : String := String.ofList ('\'' :: escapeChar '\'' c ++ ['\''])

/-- A string between double quotes. -/
def quoteString (s : String) : String :=
  String.ofList ('"' :: s.toList.flatMap (escapeChar '"') ++ ['"'])

example : quoteChar '\t' = "'\\t'" := by decide
example : quoteString "a\"b" = "\"a\\\"b\"" := by decide

end PinWave.Text
