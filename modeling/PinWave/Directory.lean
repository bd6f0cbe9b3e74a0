import PinWave.Error
/-!
# Working directories

A working directory holds named files, each text or raw bytes, and no subdirectories. A path is
followed part by part: `.` stays in the working directory, `..` at the end names the directory
that holds it, and any other part before the last must be a directory, so a file there is not a
directory and anything else is not found. A directory cannot be read or written as a file, and a
path that ends with `/` must name a directory: reading a file named so finds it is not a
directory, and writing through such a path is refused as writing a directory. Paths from the
root and paths that leave the working directory before their last part lead nowhere this model
knows: their parts are still looked up, but any file there is not found. Names are bounded as
the system bounds them: a path of `pathLimit` bytes or more is refused before it is followed,
and a part longer than `nameLimit` bytes is refused when it is looked up, so a part before it
that is missing or a file is reported first.

## Main definitions
* `Contents`, `Directory`.
* `Directory.locate`: where a path leads.
* `Directory.read`, `Directory.readText`, `Directory.write`.
* `Directory.changedSince`: the files that are new or differ from an earlier state.
-/

namespace PinWave

/-- The contents of a file. -/
inductive Contents where
  | text (s : String)
  | bytes (b : List UInt8)
  deriving DecidableEq, Inhabited

/-- The bytes of contents. -/
def Contents.toBytes : Contents → List UInt8
  | .text s => s.toUTF8.toList
  | .bytes b => b

/-- Files by name, in order of creation. -/
structure Directory where
  files : List (String × Contents)
  deriving Inhabited

namespace Directory

/-- No files. -/
def empty : Directory := ⟨[]⟩

/-- The file name a path stands for in this directory, if it stands for one. -/
def fileName? (path : String) : Option String :=
  match (path.splitOn "/").dropWhile (· == ".") with
  | [name] => if name.isEmpty then none else some name
  | _ => none

/-- Whether the working directory has a file of this name. -/
def has (d : Directory) (name : String) : Bool := d.files.any (·.1 == name)

/-- Where a path leads from the working directory. -/
inductive Place where
  /-- A directory: the working directory itself or the one that holds it. -/
  | directory
  /-- The entry `name` of the working directory, which may not exist yet; `slash` tells whether
  the path ends with `/`. -/
  | entry (name : String) (slash : Bool)
  deriving DecidableEq

/-- The most bytes in one part of a path. -/
def nameLimit : Nat := 255

/-- The bytes a path must stay below, its terminating zero byte included. -/
def pathLimit : Nat := 4096

/-- Passes through the parts of a path before its last, from the working directory when `inside`
holds and from a directory this model does not know otherwise; answers whether the path is still
inside. `.` stays where it is, `..` leaves the working directory, and any other part is looked up
and must be a directory. -/
def passThrough (d : Directory) (inside : Bool) : List String → Except FileFault Bool
  | [] => .ok inside
  | p :: rest =>
    if p == "." then d.passThrough inside rest
    else if p == ".." then d.passThrough false rest
    else if p.utf8ByteSize > nameLimit then .error .nameTooLong
    else if inside && d.has p then .error .notDirectory
    else .error .notFound

/-- Follows a path from the working directory; empty parts, from doubled or final slashes, are
skipped. -/
def locate (d : Directory) (path : String) : Except FileFault Place :=
  if path.utf8ByteSize ≥ pathLimit then .error .nameTooLong
  else
    let root := path.startsWith "/"
    let parts := ((path.toList.splitOn '/').map String.ofList).filter (· != "")
    match parts.getLast? with
    | none => if root then pure .directory else .error .notFound
    | some last => do
      let inside ← d.passThrough (!root) parts.dropLast
      if last == "." || last == ".." then pure .directory
      else if last.utf8ByteSize > nameLimit then throw .nameTooLong
      else if inside then pure (.entry last (path.endsWith "/"))
      else throw .notFound

/-- The contents of a file. -/
def read (d : Directory) (path : String) : Except FileFault Contents := do
  match ← d.locate path with
  | .directory => throw .isDirectory
  | .entry n slash =>
    match d.files.find? (·.1 == n) with
    | some (_, c) => if slash then throw .notDirectory else pure c
    | none => throw .notFound

/-- The contents of a file as text. -/
def readText (d : Directory) (path : String) : Except Error String :=
  match d.read path with
  | .ok (.text s) => .ok s
  | .ok (.bytes b) => .ok (String.fromUTF8? (ByteArray.mk b.toArray) |>.getD "")
  | .error f => .error (.file f)

/-- Creates or replaces a file. -/
def write (d : Directory) (path : String) (c : Contents) : Except Error Directory :=
  match d.locate path with
  | .error f => .error (.file f)
  | .ok .directory => .error (.file .isDirectory)
  | .ok (.entry n slash) =>
    if slash then .error (.file .isDirectory)
    else if d.has n then .ok ⟨d.files.map fun e => if e.1 == n then (n, c) else e⟩
    else .ok ⟨d.files ++ [(n, c)]⟩

/-- The files that are new or whose bytes differ from those in `before`. -/
def changedSince (d before : Directory) : List (String × Contents) :=
  d.files.filter fun (n, c) =>
    match before.files.find? (·.1 == n) with
    | some (_, c0) => c0.toBytes != c.toBytes
    | none => true

end Directory

end PinWave
