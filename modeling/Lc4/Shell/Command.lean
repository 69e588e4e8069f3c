import Lc4.Shell.Assembly
import Lc4.Text.Blank

/-!
# Commands

A command line is a command name, in any letter case, and its arguments. Blank lines and lines
that are only a comment hold no command. The path of `load` is the rest of the line as it stands.
-/
namespace Lc4.Shell

/-- An address, or the label that stands for one. -/
inductive Location
  | addr (a : Word)
  | label (name : String)
deriving DecidableEq

namespace Location

def resolve (labels : Labels) : Location → Except CommandError Word
  | addr a => .ok a
  | label name =>
    match labels.find? name with
    | some a => .ok a
    | none => .error (.unknownLabel name)

def text : Location → String
  | addr a => "0x" ++ Text.Numeral.hex 4 a.toNat
  | label name => name

end Location

/-- What `print` shows. -/
inductive PrintTarget
  | all
  | code
  | mem (start : Location) (count : Word)
  | psr
  | nzp
  | reg
  | labels
deriving DecidableEq

/-- The commands that let the machine run. -/
inductive Motion
  | run
  | resume
  | step (count : Word)
  | next
  | over
  | finish
deriving DecidableEq

inductive Command
  | load (path : String)
  | move (m : Motion)
  | breakpoint (location : Location)
  | delete (location : Location)
  | breakpoints
  | print (target : PrintTarget)
  | eval (a : Assembly)
  | reset
  | clear
  | help
  | quit
deriving DecidableEq

namespace Command

open Reader

def location : Reader Location := do
  match ← next? with
  | none => throw (.missingArgument "an address or label")
  | some ⟨.ok (.unsigned a), _⟩ => return .addr a
  | some ⟨.ok (.ident name), _⟩ => return .label name
  | some a => throw (.invalidAddress a.text)

/-- A count of at least one; one if it is left out. -/
def count : Reader Word := do
  match ← next? with
  | none => return 1
  | some ⟨.ok (.unsigned n), text⟩ =>
    if n = 0 then throw (.invalidCount text) else return n
  | some a => throw (.invalidCount a.text)

def printTarget : Reader PrintTarget := do
  match ← next? with
  | none => return .all
  | some ⟨.ok (.ident name), _⟩ =>
    match String.ofList (Text.lower name.toList) with
    | "code" | "c" => return .code
    | "mem" | "m" => return .mem (← location) (← count)
    | "psr" => return .psr
    | "nzp" | "n" => return .nzp
    | "reg" | "r" => return .reg
    | "labels" | "l" => return .labels
    | _ => throw (.unknownPrintTarget name)
  | some a => throw (.unknownPrintTarget a.text)

/-- Reads the arguments of the command with a name in lower case, if there is one. The commands
`load` and `eval`, which read the rest of the line on their own, are not among them. -/
def arguments? (name : String) : Option (Reader Command) :=
  match name with
  | "run" | "r" => some (return .move .run)
  | "continue" | "c" => some (return .move .resume)
  | "step" | "s" => some (return .move (.step (← count)))
  | "next" | "n" => some (return .move .next)
  | "over" | "o" => some (return .move .over)
  | "finish" | "f" => some (return .move .finish)
  | "breakpoint" | "break" | "b" => some (return .breakpoint (← location))
  | "delete" | "d" => some (return .delete (← location))
  | "breakpoints" | "bl" => some (return .breakpoints)
  | "print" | "p" => some (return .print (← printTarget))
  | "reset" => some (return .reset)
  | "clear" => some (return .clear)
  | "help" | "h" => some (return .help)
  | "quit" | "exit" | "q" => some (return .quit)
  | _ => none

/-- Reads a command from its name and the text behind it. -/
def ofParts (name rest : List Char) : Except CommandError Command :=
  match String.ofList (Text.lower name) with
  | "load" | "l" =>
    if rest.isEmpty then .error (.missingArgument "a file path")
    else .ok (.load (String.ofList rest))
  | "eval" | "e" =>
    if rest.isEmpty then .error (.missingArgument "an instruction")
    else (Assembly.parse rest).map .eval
  | lowered =>
    match arguments? lowered with
    | none => .error (.unknownCommand (String.ofList name))
    | some arguments =>
      (do
        let c ← arguments
        finish
        return c : Reader Command).run' (Argument.ofChars rest)

/-- Reads a line; none if there is no command on it. -/
def parse (line : String) : Except CommandError (Option Command) :=
  match Text.trim line.toList with
  | [] => .ok none
  | ';' :: _ => .ok none
  | cs =>
    let (name, rest) := Text.splitWord cs
    (ofParts name (Text.trim rest)).map some

end Command

end Lc4.Shell
