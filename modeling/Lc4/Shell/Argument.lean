import Lc4.Instr.Basic
import Lc4.Shell.Token

/-!
# Arguments of commands

The arguments of a command are the lexemes of its text without commas and comments. They are read
from the left; a lexeme that cannot be read is an error only where it is reached.
-/
namespace Lc4.Shell

inductive CommandError
  | lex (e : LexError)
  | range (e : RangeError)
  | unknownCommand (name : String)
  | missingArgument (expected : String)
  | unexpectedArgument (found : String)
  | invalidAddress (found : String)
  | unknownLabel (name : String)
  | invalidCount (found : String)
  | unknownPrintTarget (found : String)
  | unknownInstruction (found : String)
  | invalidOperand (expected found : String)
deriving DecidableEq

namespace CommandError

private def quoted (s : String) : String :=
  "`" ++ s ++ "`"

def message : CommandError → String
  | lex e => e.message
  | range e => e.message
  | unknownCommand s => "unknown command " ++ quoted s
  | missingArgument s => "missing argument: expected " ++ s
  | unexpectedArgument s => "unexpected argument " ++ quoted s
  | invalidAddress s => "Invalid address: " ++ s
  | unknownLabel s => "unknown label " ++ quoted s
  | invalidCount s => "invalid count " ++ quoted s
  | unknownPrintTarget s => "unknown print target " ++ quoted s
  | unknownInstruction s => "unknown instruction " ++ quoted s
  | invalidOperand expected found => "expected " ++ expected ++ ", found " ++ quoted found

def help? : CommandError → Option String
  | lex e => some e.help
  | range e => some e.help
  | unknownCommand _ => some "type `help` for the list of commands"
  | invalidAddress _ =>
    some "addresses can be decimal, 0x/x hex, 0o octal, 0b binary, or a label"
  | unknownLabel _ => some "`print labels` lists the labels of the loaded object files"
  | invalidCount _ => some "counts are positive integers"
  | unknownPrintTarget _ =>
    some "print one of: code, mem <addr> [count], psr, nzp, reg, labels"
  | missingArgument _ | unexpectedArgument _ | unknownInstruction _ | invalidOperand _ _ => none

end CommandError

/-- A token or error with the text that it was read from. -/
structure Argument where
  result : Except LexError Token
  text : String

namespace Argument

def isSeparator (a : Argument) : Bool :=
  match a.result with
  | .ok .comma | .ok .comment => true
  | _ => false

def ofChars (cs : List Char) : List Argument :=
  ((Lexeme.ofChars cs).map fun x => ⟨x.result, x.text⟩).filter fun a => !a.isSeparator

end Argument

/-- Reads from the arguments that are left. -/
abbrev Reader := StateT (List Argument) (Except CommandError)

namespace Reader

/-- The next argument, if there is one. -/
def next? : Reader (Option Argument) := do
  match ← get with
  | [] => return none
  | a :: rest =>
    set rest
    return some a

/-- The end of the arguments. -/
def finish : Reader Unit := do
  match ← next? with
  | none => return ()
  | some a => throw (.unexpectedArgument a.text)

/-- The next operand of an instruction. -/
def operand (expected : String) : Reader (Token × String) := do
  match ← next? with
  | none => throw (.missingArgument expected)
  | some ⟨.ok t, text⟩ => return (t, text)
  | some ⟨.error e, _⟩ => throw (.lex e)

def reg : Reader Reg := do
  match ← operand "a register" with
  | (.reg r, _) => return r
  | (_, found) => throw (.invalidOperand "a register" found)

def fit (s : Signedness) (bits : Nat) (w : Word) : Reader (BitVec bits) :=
  match Offset.immediate s bits w with
  | .ok v => return v
  | .error e => throw (.range e)

/-- A number without a sign, where a signed one is wanted. -/
def nonnegative (w : Word) (found : String) : Reader Word :=
  if w.msb then throw (.invalidOperand "a signed immediate" found) else return w

def signed (bits : Nat) : Reader (BitVec bits) := do
  match ← operand "an immediate" with
  | (.signed w, _) => fit .signed bits w
  | (.unsigned w, found) => fit .signed bits (← nonnegative w found)
  | (_, found) => throw (.invalidOperand "an immediate" found)

def unsigned (bits : Nat) : Reader (BitVec bits) := do
  match ← operand "an unsigned immediate" with
  | (.unsigned w, _) => fit .unsigned bits w
  | (_, found) => throw (.invalidOperand "an unsigned immediate" found)

def regOrSigned (bits : Nat) : Reader (Operand bits) := do
  match ← operand "a register or immediate" with
  | (.reg r, _) => return .reg r
  | (.signed w, _) => return .imm (← fit .signed bits w)
  | (.unsigned w, found) => return .imm (← fit .signed bits (← nonnegative w found))
  | (_, found) => throw (.invalidOperand "a register or immediate" found)

def label : Reader String := do
  match ← operand "a label" with
  | (.ident name, _) => return name
  | (_, found) => throw (.invalidOperand "a label" found)

end Reader

end Lc4.Shell
