import Lc4.Machine.Step
import Lc4.Object.Load
import Lc4.Shell.Command
import Lc4.Text.Paint

/-!
# What the shell writes

Every listing is made of whole lines. On a terminal with colours errors are red, the word `help:`
cyan, and registers that the last operation changed yellow.
-/
namespace Lc4.Shell.Listing

def line (s : String) : String :=
  s ++ "\n"

/-- An address as the shell writes it. -/
def address (a : Word) : String :=
  "0x" ++ Text.Numeral.hex 4 a.toNat

/-- An error message, and the advice on it if there is any. -/
def error (coloured : Bool) (message : String) (help? : Option String) : String :=
  line (Text.Colour.red.paint coloured message) ++
    match help? with
    | some help => line (Text.Colour.cyan.paint coloured "help:" ++ " " ++ help)
    | none => ""

def fault (coloured : Bool) (f : Fault) : String :=
  error coloured f.message (some f.help)

def commandError (coloured : Bool) (e : CommandError) : String :=
  error coloured e.message e.help?

def loadError (coloured : Bool) (e : LoadError) : String :=
  error coloured e.message e.help?

/-- A memory word: address, bits, hexadecimal digits and the instruction it encodes. -/
def word (a w : Word) : String :=
  line (address a ++ ":\t0b" ++ Text.Numeral.binary 16 w.toNat ++ " / " ++ address w ++ "\t"
    ++ (Instr.decode w).text)

def psr (p : Psr) : String :=
  let flag (b : Bool) : String := if b then "1" else "0"
  line ("psr:\t" ++ flag (p.cond == .negative) ++ "/" ++ flag (p.cond == .zero) ++ "/"
    ++ flag (p.cond == .positive) ++ " (privilege " ++ toString p.privileged ++ ")")

def reg (coloured : Bool) (m : Machine) (r : Reg) : String :=
  let w := m.reg r
  let text :=
    "\t" ++ r.name ++ ": " ++ Text.Numeral.binary 16 w.toNat ++ " / " ++ address w
  line (Text.Colour.yellow.paint (coloured && (m.observer.reg r).modified) text)

def regs (coloured : Bool) (m : Machine) : String :=
  String.join (Reg.all.map (reg coloured m))

/-- Labels in the order of their addresses, and of their names at one address. -/
def sortedLabels (l : Labels) : List (String × Word) :=
  l.entries.mergeSort fun p q => p.2 ≤ q.2

def labels (l : Labels) : String :=
  match sortedLabels l with
  | [] => line "No labels loaded"
  | entries => String.join (entries.map fun p => line (address p.2 ++ ":\t" ++ p.1))

/-- The word at the program counter. -/
def code (m : Machine) : String :=
  word m.pc (m.mem.get m.pc)

def target (coloured : Bool) (m : Machine) : PrintTarget → String
  | .all => code m ++ psr m.psr ++ regs coloured m
  | .code => code m
  | .mem start count =>
    match start.resolve m.labels with
    | .ok a => String.join ((m.mem.window a count.toNat).map fun p => word p.1 p.2)
    | .error e => commandError coloured e
  | .psr | .nzp => psr m.psr
  | .reg => regs coloured m
  | .labels => labels m.labels

def breakpoints (notes : Notes) : String :=
  match notes.breakpoints with
  | [] => line "No breakpoints set"
  | addrs => String.join <| addrs.map fun a =>
    match notes.label? a with
    | some label => line ("Breakpoint at " ++ address a ++ " (" ++ label ++ ")")
    | none => line ("Breakpoint at " ++ address a)

/-- Where a run stopped, and at what; nothing if it stopped of its own accord. -/
def stop (coloured : Bool) (o : Outcome) : String :=
  match o.fault with
  | some f => fault coloured f
  | none =>
    match o.machine.pause with
    | .breakpoint => line ("Hit breakpoint at " ++ address o.machine.pc)
    | .halt => line ("Halted at " ++ address o.machine.pc)
    | .none => ""

def help : String :=
  String.join <| List.map line [
    "Commands (aliases in parentheses):",
    "  load <path>          (l)   clear the machine and load an object file",
    "  run                  (r)   reset, then continue",
    "  continue             (c)   run until halt, breakpoint, or fault",
    "  step [count]         (s)   execute one instruction (or `count`, stopping at breakpoints)",
    "  next                 (n)   run until PC reaches PC + 1",
    "  over                 (o)   step, running through subroutine calls",
    "  finish               (f)   run until the current subroutine returns",
    "  breakpoint <addr>    (b)   set a breakpoint",
    "  delete <addr>        (d)   remove a breakpoint",
    "  breakpoints          (bl)  list breakpoints",
    "  print                (p)   print the code line, PSR, and registers",
    "  print code           (p c) print the word at PC",
    "  print mem <addr> [n] (p m) print `n` words of memory starting at `addr`",
    "  print psr | nzp      (p n) print the condition codes and privilege",
    "  print reg            (p r) print the registers",
    "  print labels         (p l) print the loaded labels",
    "  eval <instruction>   (e)   execute an instruction as though it were at PC",
    "  reset                      reset registers, PC, and PSR",
    "  clear                      reset and zero memory, labels, and breakpoints",
    "  help                 (h)   print this message",
    "  quit                 (q)   leave the debugger",
    "",
    "Addresses: decimal, 0x/x hex, 0o or leading-0 octal, 0b binary, or a label."]

end Lc4.Shell.Listing
