import PinWave.Command.Programs
/-!
# Command-line entry point

`pinwave PROGRAM ARGS…` runs one of the programs in the current directory. The files named by the
arguments are read first; the program runs on them; the files it creates or changes are written
back; its output goes to standard output and a failure to standard error. Dumps are read by the
dump library the executable links (`runMain`).
-/

open PinWave PinWave.Command

/-- The contents of a file: text when it is valid UTF-8, bytes otherwise. -/
def contentsOf (b : ByteArray) : Contents :=
  match String.fromUTF8? b with
  | some s => .text s
  | none => .bytes b.toList

/-- Reads the files named by arguments, skipping arguments that name none. -/
def readNamedFiles (args : List String) : IO Directory := do
  let mut files : List (String × Contents) := []
  for a in args do
    if (Directory.fileName? a).isSome && !files.any (·.1 == a) then
      try
        let b ← IO.FS.readBinFile a
        files := files ++ [(a, contentsOf b)]
      catch _ => pure ()
  return ⟨files⟩

/-- The command line run with the dump library `reader`. -/
def runMain (reader : Dump.Reader) (args : List String) : IO UInt32 := do
  match args with
  | [] =>
    IO.eprintln "usage: pinwave (ascii2glue|gluebits|gluecmp|glueedit|vcd2glue) ARGS..."
    return 2
  | bin :: rest =>
    let before ← readNamedFiles rest
    match runProgram reader bin rest before with
    | none =>
      IO.eprintln ("unknown program " ++ bin)
      return 2
    | some o =>
      for (n, c) in o.written before do
        IO.FS.writeBinFile n (ByteArray.mk c.toBytes.toArray)
      IO.print o.stdout
      if let some f := o.failure then IO.eprintln f
      return UInt32.ofNat o.status
