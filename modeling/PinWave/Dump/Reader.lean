import PinWave.Dump.Header
/-!
# Reading a dump

A dump is read by a library, in two passes over its text. The first parses the header into its
timescale and its tree of scopes and variables. The second runs through the whole text and yields
its value changes in order, each a timestamp or the new levels of an identifier code, given as
the bytes the text holds. Either pass may refuse the text, with a message.

The library is not part of this development: a `Reader` is what it provides, and everything that
reads dumps takes one. What the trace of a dump needs of it is only that both passes succeed on
the text, with the header and the changes they give (`Reader.Reads`); how a concrete library
reads the syntax of a dump would need a contract of its own.

## Main definitions
* `Change`: one value change.
* `Reader`, `Reader.Reads`.
-/

namespace PinWave.Dump

/-- One value change of a dump: a timestamp, or the levels an identifier code takes, as the bytes
the text holds, the most significant first. -/
inductive Change where
  | tick (t : Nat)
  | levels (code : Nat) (bits : List UInt8)
  deriving Inhabited

/-- The two passes of the dump library over a text: its header, and its value changes in the
order of the text. Either may refuse the text with a message. -/
structure Reader where
  header : String → Except String Header
  changes : String → Except String (List Change)

/-- The reader reads `text` as the header `header` and the changes `changes`. -/
structure Reader.Reads (reader : Reader) (text : String) (header : Header) (changes : List Change) :
    Prop where
  header_eq : reader.header text = .ok header
  changes_eq : reader.changes text = .ok changes

end PinWave.Dump
