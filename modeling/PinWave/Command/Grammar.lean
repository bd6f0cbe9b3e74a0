import PinWave.Decimal.Read
/-!
# Command-line grammar

A program's command line is described by its positional parameters, its long options and flags,
and optionally its commands, each with parameters and options of its own. The description gives
both the reading of an argument list and the help text.

Arguments are read from left to right. `--` makes every later argument a value; `--name` and
`--name=value` name an option or flag; an argument starting with one `-` is a cluster of short
flags, of which only `-h` exists; a command's name starts that command, wherever it stands;
anything else is the value of an option waiting for one, or the next positional parameter. A
value is checked when the next argument is taken up, or at the end. The first fault, or the
first help flag, ends the reading; missing parameters or a missing command are faults found at
the end. `--help` asks for the long help, which differs from the short one only where a
parameter has a longer text.

## Main definitions
* `ValueKind`, `Param`, `Opt`, `Spec`, `Program`.
* `Program.read`: an argument list read as parsed values, a help text, or a refusal.
* `Spec.helpText`: the help text of a program or command.
-/

namespace PinWave.Command

/-- What a value must read as. -/
inductive ValueKind where
  | text
  | decimal
  | whole (bound : Nat)
  | ranged (bound : Nat)
  deriving Inhabited

/-- Whether a value reads as its kind. -/
def ValueKind.accepts : ValueKind → String → Bool
  | .text, _ => true
  | .decimal, s => (Decimal.readFloat? s).isSome
  | .whole b, s => (Decimal.readWhole? s b).isSome
  | .ranged b, s => (Decimal.readRanged? s b).isSome

/-- A positional parameter: its value name, its help, and a longer help when it has one. -/
structure Param where
  valueName : String
  help : String
  longHelp : Option String := none
  kind : ValueKind := .text
  optional : Bool := false
  repeated : Bool := false
  deriving Inhabited

/-- A long option: a flag when it has no value name. `shown` is the default shown in help. -/
structure Opt where
  long : String
  valueName : Option String := none
  help : String
  longHelp : Option String := none
  shown : Option String := none
  kind : ValueKind := .text
  deriving Inhabited

/-- A program or command: name, description, parameters and options. -/
structure Spec where
  name : String
  about : Option String := none
  params : List Param
  opts : List Opt
  helpFlag : Bool := true
  deriving Inhabited

/-- A program with optional commands; a program with commands also has the command `help`. -/
structure Program where
  main : Spec
  commands : List Spec
  deriving Inhabited

/-! ## Help text -/

/-- Spaces before the help of an argument written on the next line. -/
def nextLineIndent : String := String.ofList (List.replicate 10 ' ')

/-- Help lines are not wrapped; this width only decides whether help goes on the next line. -/
def termWidth : Nat := 100

/-- Pads text with spaces to at least `n` characters. -/
def pad (n : Nat) (s : String) : String := s ++ String.ofList (List.replicate (n - s.length) ' ')

/-- The help flag of a program or command. -/
def helpOpt (hasLong : Bool) (long : Bool) : Opt :=
  { long := "help",
    help := if !hasLong then "Print help"
      else if long then "Print help (see a summary with '-h')"
      else "Print help (see more with '--help')" }

/-- The name of a parameter in usage and help. -/
def Param.spec (p : Param) : String :=
  (if p.optional then "[" ++ p.valueName ++ "]" else "<" ++ p.valueName ++ ">") ++
    (if p.repeated then "..." else "")

/-- The name of an option after its short slot. -/
def Opt.spec (o : Opt) : String :=
  "--" ++ o.long ++ (match o.valueName with | some v => " <" ++ v ++ ">" | none => "")

/-- The default shown after an option's help. -/
def Opt.shownText (o : Opt) : String :=
  match o.shown with
  | some d => "[default: " ++ d ++ "]"
  | none => ""

/-- The help of an option with its default. -/
def Opt.fullHelp (o : Opt) (text : String) : String :=
  if o.shownText.isEmpty then text else text ++ " " ++ o.shownText

/-- Whether any parameter or option has a longer help. -/
def Spec.hasLongHelp (s : Spec) : Bool :=
  s.params.any (·.longHelp.isSome) || s.opts.any (·.longHelp.isSome)

/-- An entry of a help section: its name column and width, the width of its short help with
its default, and the help to write. -/
structure Entry where
  name : String
  width : Nat
  helpWidth : Nat
  help : String

/-- Writes a section of entries: on one line each, or with the help on the next line when the
help is long or some help would not fit beside the widest name. -/
def section_ (heading : String) (long : Bool) (entries : List Entry) : String :=
  let longest := entries.foldl (fun m e => max m e.width) 2
  let taken := longest + 4
  let nextLine := long || entries.any fun e =>
    termWidth ≥ taken && 10 * taken > 4 * termWidth && e.helpWidth > termWidth - taken
  let one (e : Entry) : String :=
    if nextLine then
      "  " ++ e.name ++ "\n" ++
        "\n".intercalate ((e.help.splitOn "\n").map (nextLineIndent ++ ·))
    else "  " ++ pad longest e.name ++ "  " ++ e.help
  heading ++ ":\n" ++ (if nextLine && long then "\n\n" else "\n").intercalate (entries.map one)

/-- The usage line of a program or command, after the name it is called by. -/
def Spec.usage (s : Spec) (usageName : String) (hasCommands : Bool) : String :=
  usageName ++ (if s.opts.isEmpty then "" else " [OPTIONS]") ++
    String.join (s.params.map (" " ++ ·.spec)) ++ (if hasCommands then " <COMMAND>" else "")

/-- The help text of a program or command called as `usageName`, with its commands and their
descriptions; `long` asks for the long help. -/
def Spec.helpText (s : Spec) (usageName : String) (commands : List (String × String))
    (long : Bool) : String :=
  let long := long && s.hasLongHelp
  let paramEntries := s.params.map fun p =>
    ⟨p.spec, p.spec.length, p.help.length, if long then p.longHelp.getD p.help else p.help⟩
  let opts := s.opts ++ (if s.helpFlag then [helpOpt s.hasLongHelp long] else [])
  let optEntries := opts.map fun o =>
    let name := (if o.long == "help" then "-h, " else "    ") ++ o.spec
    ⟨name, name.length, o.help.length + o.shownText.length,
      if long then o.fullHelp (o.longHelp.getD o.help) else o.fullHelp o.help⟩
  let commandEntries := commands.map fun (n, a) => (⟨n, n.length, a.length, a⟩ : Entry)
  let sections :=
    (if commands.isEmpty then [] else [section_ "Commands" false commandEntries]) ++
    (if paramEntries.isEmpty then [] else [section_ "Arguments" long paramEntries]) ++
    (if optEntries.isEmpty then [] else [section_ "Options" long optEntries])
  (match s.about with | some a => a ++ "\n\n" | none => "") ++
    "Usage: " ++ s.usage usageName (!commands.isEmpty) ++ "\n\n" ++
    "\n\n".intercalate sections ++ "\n"

/-! ## Reading -/

/-- Values read at one level: positional values in order, and options by long name. -/
structure Values where
  params : List String
  opts : List (String × String)
  deriving Inhabited

/-- The value of an option. -/
def Values.opt? (v : Values) (long : String) : Option String := (v.opts.find? (·.1 == long)).map (·.2)

/-- The value of a positional parameter. -/
def Values.param (v : Values) (i : Nat) : String := v.params.getD i ""

/-- How reading ends. -/
inductive Reading where
  | help (text : String)
  | refused
  | ok (main : Values) (command : Option (String × Values))
  deriving Inhabited

/-- A value waiting to be checked, or an option waiting for its value. -/
inductive Waiting where
  | none
  | param (p : Param) (value : String)
  | opt (o : Opt)

/-- The state of reading one level. -/
structure Walk where
  values : Values
  waiting : Waiting
  escaped : Bool

/-- Checks the waiting value: a parameter value that reads as its kind is kept, anything else
waiting is a fault. -/
def Walk.settle (w : Walk) : Option Walk :=
  match w.waiting with
  | .none => some w
  | .param p v =>
    if p.kind.accepts v then
      some { w with values := { w.values with params := w.values.params ++ [v] }, waiting := .none }
    else none
  | .opt _ => none

/-- Adds an option's value; an option given twice is a fault. -/
def Walk.addOpt (w : Walk) (o : Opt) (v : String) : Option Walk :=
  if w.values.opts.any (·.1 == o.long) || !o.kind.accepts v then none
  else some { w with values := { w.values with opts := w.values.opts ++ [(o.long, v)] } }

/-- How reading one level ends: with a help request (long or short), a fault, the end of the
arguments, or a command name and the arguments after it. -/
inductive Step where
  | help (long : Bool)
  | refused
  | done (v : Values)
  | command (v : Values) (name : String) (rest : List String)

/-- Reads one argument given as `--name` or `--name=value`. -/
def Spec.readLong (s : Spec) (w : Walk) (body : List Char) : Option Walk ⊕ Bool :=
  let name := String.ofList (body.takeWhile (· != '='))
  let attached := match body.dropWhile (· != '=') with
    | _ :: v => some (String.ofList v)
    | [] => Option.none
  if name == "help" && s.helpFlag then
    if attached.isSome then .inl Option.none
    else match w.settle with
      | some _ => .inr true
      | Option.none => .inl Option.none
  else match s.opts.find? (·.long == name) with
    | Option.none => .inl Option.none
    | some o =>
      match o.valueName, attached with
      | Option.none, some _ => .inl Option.none
      | Option.none, Option.none => .inl (w.settle.bind (·.addOpt o "true"))
      | some _, some v => .inl (w.settle.bind (·.addOpt o v))
      | some _, Option.none => .inl (w.settle.map ({ · with waiting := .opt o }))

/-- Reads the arguments of one level; `commands` are the names that start a command. -/
def Spec.walk (s : Spec) (commands : List String) (w : Walk) : List String → Step
  | [] =>
    match w.settle with
    | some w => .done w.values
    | Option.none => .refused
  | a :: rest =>
    if !w.escaped && commands.contains a then
      match w.settle with
      | some w => .command w.values a rest
      | Option.none => .refused
    else if !w.escaped && a == "--" then s.walk commands { w with escaped := true } rest
    else
      let cs := a.toList
      match w.escaped, cs with
      | false, '-' :: '-' :: body =>
        match s.readLong w body with
        | .inr long => .help long
        | .inl (some w) => s.walk commands w rest
        | .inl Option.none => .refused
      | false, '-' :: c :: _ =>
        if c == 'h' && s.helpFlag then
          match w.settle with
          | some _ => .help false
          | Option.none => .refused
        else .refused
      | _, _ =>
        match w.waiting, w.escaped with
        | .opt o, false =>
          match { w with waiting := .none }.addOpt o a with
          | some w => s.walk commands w rest
          | Option.none => .refused
        | _, _ =>
          let filled := w.values.params.length + (match w.waiting with | .param .. => 1 | _ => 0)
          match s.params[filled]? with
          | Option.none => .refused
          | some p =>
            match w.settle with
            | some w => s.walk commands { w with waiting := .param p a } rest
            | Option.none => .refused

/-- Whether every required parameter has a value. -/
def Spec.complete (s : Spec) (v : Values) : Bool :=
  v.params.length ≥ (s.params.filter (!·.optional)).length

/-- The command `help`: it prints the help of the program or of a command. -/
def helpCommand : Spec :=
  { name := "help", about := some "Print this message or the help of the given subcommand(s)",
    params := [{ valueName := "COMMAND", help := "Print help for the subcommand(s)",
                 optional := true, repeated := true }],
    opts := [], helpFlag := false }

namespace Program

/-- The commands with the command `help`, when there are any. -/
def allCommands (p : Program) : List Spec :=
  if p.commands.isEmpty then [] else p.commands ++ [helpCommand]

/-- The name a command is called by in its usage line: the program's usage without options and
command, then the command's name. -/
def commandUsage (p : Program) (bin : String) (c : Spec) : String :=
  bin ++ String.join (p.main.params.map (" " ++ ·.spec)) ++ " " ++ c.name

/-- The help text of the program. -/
def mainHelp (p : Program) (bin : String) (long : Bool) : String :=
  p.main.helpText bin (p.allCommands.map fun c => (c.name, c.about.getD "")) long

/-- The help text of a command. -/
def commandHelp (p : Program) (bin : String) (c : Spec) (long : Bool) : String :=
  c.helpText (p.commandUsage bin c) [] long

/-- The help asked for by `help` followed by command names. -/
def helpFor (p : Program) (bin : String) : List String → Reading
  | [] => .help (p.mainHelp bin true)
  | [n] =>
    match p.allCommands.find? (·.name == n) with
    | some c => .help (p.commandHelp bin c true)
    | none => .refused
  | _ => .refused

/-- Reads an argument list of the program called as `bin`. -/
def read (p : Program) (bin : String) (args : List String) : Reading :=
  let start : Walk := ⟨⟨[], []⟩, .none, false⟩
  match p.main.walk (p.allCommands.map (·.name)) start args with
  | .help long => .help (p.mainHelp bin long)
  | .refused => .refused
  | .done v =>
    if !p.commands.isEmpty || !p.main.complete v then .refused else .ok v none
  | .command v name rest =>
    if name == "help" then p.helpFor bin rest
    else match p.commands.find? (·.name == name) with
      | none => .refused
      | some c =>
        match c.walk [] start rest with
        | .help long => .help (p.commandHelp bin c long)
        | .refused | .command .. => .refused
        | .done cv =>
          if c.complete cv && p.main.complete v then .ok v (some (name, cv)) else .refused

end Program

end PinWave.Command
