import Lc4.CallStack
import Lc4.Labels
import Lc4.Memory
import Lc4.Notes
import Lc4.Observer
import Lc4.Psr
import Lc4.Reg

/-!
# The machine

Registers, memory, program counter and status register, and beside them what a debugger keeps:
call frames, the number of instructions run, observed accesses, labels, notes and the state of the
last run.
-/
namespace Lc4

structure Flags where
  /-- Degraded behaviour (division by zero, forbidden stores, unknown words, execution of data) is
  a fault. -/
  strict : Bool
  /-- Call frames are kept, from the next reset on. -/
  keepFrames : Bool
  /-- Every check of the privilege passes. The privilege bit itself changes as usual. -/
  ignorePrivilege : Bool
deriving DecidableEq

def Flags.none : Flags := ⟨false, false, false⟩

inductive RunStatus
  | idle
  | running
  | halted
deriving DecidableEq

/-- Why the last operation stopped, where the state alone does not show it. -/
inductive Pause
  | none
  | halt
  | breakpoint
deriving DecidableEq

structure Machine where
  mem : Memory
  regs : RegFile
  pc : Word
  psr : Psr
  calls : CallStack
  /-- Instructions run by steps and runs, modulo 2 ^ 64. -/
  count : BitVec 64
  observer : Observer
  status : RunStatus
  pause : Pause
  labels : Labels
  notes : Notes
  flags : Flags

namespace Machine

def initialPc : Word := 0x8200

/-- Nothing at this address is ever executed: a run that arrives here has halted. -/
def haltAddr : Word := 0x80FF

def new (flags : Flags) : Machine where
  mem := .zero
  regs := .zero
  pc := initialPc
  psr := .initial
  calls := .empty flags.keepFrames
  count := 0
  observer := .empty
  status := .idle
  pause := .none
  labels := .empty
  notes := .empty
  flags := flags

/-- Registers, program counter, status and frames as after a start. -/
def reset (m : Machine) : Machine :=
  { m with
    regs := .zero
    pc := initialPc
    psr := .initial
    calls := .empty m.flags.keepFrames
    observer := .empty
    status := .idle
    pause := .none }

/-- A reset that also empties memory, labels and notes. -/
def clear (m : Machine) : Machine :=
  { m.reset with mem := .zero, labels := .empty, notes := .empty }

/-- Whether instructions run with the rights of the supervisor. -/
def privileged (m : Machine) : Bool :=
  m.psr.privileged || m.flags.ignorePrivilege

def hitHalt (m : Machine) : Bool :=
  m.pause == .halt

def hitBreakpoint (m : Machine) : Bool :=
  m.pause == .breakpoint

/-- Forgets the accesses and the pause of the operation before. -/
def begin (m : Machine) : Machine :=
  { m with observer := .empty, pause := .none }

def setBreakpoint (m : Machine) (a : Word) : Machine :=
  { m with notes := m.notes.setBreakpoint a }

def removeBreakpoint (m : Machine) (a : Word) : Machine :=
  { m with notes := m.notes.removeBreakpoint a }

end Machine

end Lc4
