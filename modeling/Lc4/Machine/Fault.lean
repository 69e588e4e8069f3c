import Lc4.Instr.Printer
import Lc4.Region

/-!
# Faults

A fault is a reason why an instruction cannot run. Division by zero, forbidden stores, unknown
words and execution of data are faults in strict mode only.
-/
namespace Lc4

inductive Fault
  | pcOutOfBounds (pc : Word) (target : Int)
  | privilegeViolation (pc : Word)
  | divideByZero (pc : Word)
  | accessViolation (addr : Word)
  | illegalOpcode (pc word : Word)
  | dataExecution (pc : Word)
deriving DecidableEq

namespace Fault

def message : Fault → String
  | pcOutOfBounds pc target =>
    "PC out of bounds: instruction at " ++ pc.hex ++ " would jump to "
      ++ Text.Numeral.hex32 target
  | privilegeViolation pc =>
    "privilege violation: cannot execute OS code at " ++ pc.hex ++ " in user mode"
  | divideByZero pc => "division by zero at " ++ pc.hex ++ " (strict mode)"
  | accessViolation addr =>
    "access violation: cannot write to " ++ (Region.of addr).name ++ " address " ++ addr.hex
      ++ " (strict mode)"
  | illegalOpcode pc word =>
    "illegal opcode: " ++ word.hex ++ " at " ++ pc.hex
      ++ " is not an instruction (strict mode)"
  | dataExecution pc => "tried to execute data region at " ++ pc.hex ++ " (strict mode)"

def help : Fault → String
  | pcOutOfBounds _ _ => "check the offset of the branch or jump"
  | privilegeViolation _ =>
    "OS code can only run after a TRAP; use `reset` to start over in supervisor mode"
  | divideByZero _ => "without strict mode, division by zero results in 0"
  | accessViolation addr =>
    match Region.of addr with
    | .osData => "OS data can only be written in supervisor mode"
    | _ => "code regions cannot be written to; store data in x2000-x7FFF"
  | illegalOpcode _ _ => "without strict mode, unknown words run as NOP"
  | dataExecution _ => "code belongs in x0000-x1FFF (user) or x8000-x9FFF (OS)"

end Fault

end Lc4
