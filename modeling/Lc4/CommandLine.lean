import Lc4.Shell.Session

/-!
# The command line

The program takes an object file to load, options, and either commands on the command line or a
dialogue on standard input. Faulty arguments end it with exit code 2, input that is not UTF-8 with
exit code 1.
-/
namespace Lc4.CommandLine

structure Options where
  objectFile : Option String
  commands : Option String
  strict : Bool
  ignorePrivilege : Bool
  noColour : Bool
  log : Option String

/-- An option with a value. -/
inductive Valued
  | command
  | log
deriving DecidableEq

/-- An option without a value. -/
inductive Switch
  | strict
  | ignorePrivilege
  | noColour
  | info
deriving DecidableEq

/-- Why the arguments do not lead to a run. -/
inductive Refusal
  /-- The arguments ask for a description of the program. -/
  | info
  | usage
deriving DecidableEq

/-- Arguments read so far. -/
structure Progress where
  options : Options
  /-- The option whose value comes next. -/
  pending : Option Valued
  /-- Whether all arguments from here on are file names. -/
  onlyFiles : Bool

namespace Progress

def start : Progress :=
  ⟨⟨none, none, false, false, false, none⟩, none, false⟩

/-- Sets an option; none may be set twice. -/
def setValue (p : Progress) (o : Valued) (v : String) : Except Refusal Progress :=
  match o with
  | .command =>
    if p.options.commands.isSome then .error .usage
    else .ok { p with options := { p.options with commands := some v }, pending := none }
  | .log =>
    if p.options.log.isSome then .error .usage
    else .ok { p with options := { p.options with log := some v }, pending := none }

def setSwitch (p : Progress) : Switch → Except Refusal Progress
  | .info => .error .info
  | .strict =>
    if p.options.strict then .error .usage
    else .ok { p with options := { p.options with strict := true } }
  | .ignorePrivilege =>
    if p.options.ignorePrivilege then .error .usage
    else .ok { p with options := { p.options with ignorePrivilege := true } }
  | .noColour =>
    if p.options.noColour then .error .usage
    else .ok { p with options := { p.options with noColour := true } }

/-- An option by its long name. -/
def longOption? (name : List Char) : Option (Valued ⊕ Switch) :=
  match String.ofList name with
  | "command" => some (.inl .command)
  | "log" => some (.inl .log)
  | "strict" => some (.inr .strict)
  | "ignore-privilege" => some (.inr .ignorePrivilege)
  | "no-color" => some (.inr .noColour)
  | "help" | "version" => some (.inr .info)
  | _ => none

/-- A long option, with its value behind an equals sign or in the next argument. -/
def long (p : Progress) (cs : List Char) : Except Refusal Progress :=
  match longOption? (cs.takeWhile (· != '=')), cs.dropWhile (· != '=') with
  | none, _ => .error .usage
  | some (.inl o), [] => .ok { p with pending := some o }
  | some (.inl o), _ :: v => p.setValue o (String.ofList v)
  | some (.inr s), [] => p.setSwitch s
  | some (.inr _), _ :: _ => .error .usage

/-- Short options; the value of `-c` may follow it directly or after an equals sign. -/
def short (p : Progress) (cs : List Char) : Except Refusal Progress :=
  match cs with
  | ['c'] => .ok { p with pending := some .command }
  | 'c' :: '=' :: v => p.setValue .command (String.ofList v)
  | 'c' :: v => p.setValue .command (String.ofList v)
  | 'h' :: _ => .error .info
  | 'V' :: _ => .error .info
  | _ => .error .usage

def file (p : Progress) (path : String) : Except Refusal Progress :=
  if path = "" ∨ p.options.objectFile.isSome then .error .usage
  else .ok { p with options := { p.options with objectFile := some path } }

def next (p : Progress) (arg : String) : Except Refusal Progress :=
  if p.onlyFiles then p.file arg
  else
    match p.pending, arg.toList with
    | none, ['-', '-'] => .ok { p with onlyFiles := true }
    | none, '-' :: '-' :: cs => p.long cs
    | none, '-' :: c :: cs => p.short (c :: cs)
    | none, _ => p.file arg
    | some _, '-' :: _ :: _ => .error .usage
    | some o, _ => p.setValue o arg

def finish (p : Progress) : Except Refusal Options :=
  match p.pending with
  | none => .ok p.options
  | some _ => .error .usage

end Progress

namespace Options

def parse (args : List String) : Except Refusal Options := do
  let p ← args.foldlM Progress.next .start
  p.finish

def flags (o : Options) : Flags :=
  ⟨o.strict, false, o.ignorePrivilege⟩

/-- The level from which on events are reported, if any are. A filter is a list of levels, each
perhaps with the name of a part of the program and an equals sign in front; the last one counts. -/
def logLevel? (o : Options) : Option Level :=
  match o.log with
  | none => some .warn
  | some filter =>
    ((filter.splitOn ",").filterMap fun d => (d.splitOn "=").getLast?.bind Level.ofName?).getLast?

/-- The shell that the options ask for. -/
def shell (o : Options) (readFile : ReadFile) (fuel : Nat) (colours : Bool) : Shell :=
  ⟨readFile, fuel, colours && !o.noColour⟩

end Options

/-- Whether an output takes colours: three environment variables and whether it is a terminal
decide. The first variable forces colours unless it is `0`, the second one keeps them out, and the
third one does so if it is `0`. -/
def takesColours (force never allow : Option String) (terminal : Bool) : Bool :=
  if force.any (· != "0") then true
  else if never.isSome then false
  else allow.all (· != "0") && terminal

/-- The description of the program. -/
def usage : String :=
  "Usage: lc4 [OPTIONS] [OBJ_FILE]\n\n" ++
  "  -c, --command <COMMANDS>  run these `;`-separated commands, then exit\n" ++
  "      --strict              fault where the machine would degrade\n" ++
  "      --ignore-privilege    run as though always in supervisor mode\n" ++
  "      --no-color            disable coloured output\n" ++
  "      --log <FILTER>        the level from which on events are reported\n"

/-- What a program run leaves: its exit code and what it has written. -/
structure Exit where
  code : Nat
  output : String
deriving DecidableEq

/-- What one line of input leads to. -/
inductive Turn
  | goOn (m : Machine) (output : String)
  | leave (e : Exit)

namespace Turn

/-- Carries out a line; none if it does not end within the fuel. -/
def ofText (sh : Shell) (m : Machine) (text : String) : Option Turn :=
  (sh.executeLine m text).map fun r =>
    match r.flow with
    | .continue => goOn r.machine r.output
    | .quit => leave ⟨0, r.output⟩

/-- Carries out a line as it is read from the input, where no bytes are the end. -/
def ofBytes (sh : Shell) (m : Machine) (bytes : List UInt8) : Option Turn :=
  if bytes.isEmpty then some (leave ⟨0, "\n"⟩)
  else match Text.Utf8.decode? bytes with
    | some text => ofText sh m text
    | none => some (leave ⟨1, ""⟩)

end Turn

/-- Takes a turn for every line until one leaves. Before each turn `prompt` is written. -/
def takeTurns {α : Type} (turn : Machine → α → Option Turn) (prompt : String)
    (m : Machine) (out : String) : List α → Option Exit
  | [] => some ⟨0, out⟩
  | x :: rest =>
    match turn m x with
    | none => none
    | some (.goOn m text) => takeTurns turn prompt m (out ++ prompt ++ text) rest
    | some (.leave e) => some ⟨e.code, out ++ prompt ++ e.output⟩

def banner : String := "LC4 ISA Emulator (type `help` for commands)\n"

def prompt : String := "lc4> "

/-- The lines of an input with their line ends. -/
def splitLines (bytes : List UInt8) : List (List UInt8) :=
  let (lines, last) := bytes.foldl (fun (lines, last) b =>
    if b = 10 then ((b :: last).reverse :: lines, []) else (lines, b :: last)) ([], [])
  (if last.isEmpty then lines else last.reverse :: lines).reverse

/-- What happens before the first line: the machine, with the object file loaded. -/
def opening (sh : Shell) (o : Options) : Machine × String :=
  let m := Machine.new o.flags
  match o.objectFile with
  | none => (m, "")
  | some path =>
    let r := sh.load m path
    (r.machine, r.output)

/-- The world of a run: what paths lead to, the bytes on standard input, whether the output takes
colours, and the fuel for commands that run the machine. -/
structure World where
  readFile : ReadFile
  input : List UInt8
  colours : Bool
  fuel : Nat

/-- A run of the program; none if a command does not end within the fuel. -/
def run (w : World) (args : List String) : Option Exit :=
  match Options.parse args with
  | .error .info => some ⟨0, usage⟩
  | .error .usage => some ⟨2, ""⟩
  | .ok o =>
    let sh := o.shell w.readFile w.fuel w.colours
    let (m, out) := opening sh o
    match o.commands with
    | some text => takeTurns (Turn.ofText sh) "" m out (text.splitOn ";")
    | none => takeTurns (Turn.ofBytes sh) prompt m (out ++ banner) (splitLines w.input ++ [[]])

end Lc4.CommandLine
