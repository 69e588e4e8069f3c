import Lc4.Machine.Load
import Lc4.Machine.Run
import Lc4.Text.LetterCase

/-!
# Events

What an operation reports while it works. A step or a run is replayed from its first state for as
many instructions as it ran, so the operations themselves carry no log; as a run may be long, only
the events that are wanted are kept.
-/
namespace Lc4

inductive Level
  | trace
  | debug
  | info
  | warn
deriving DecidableEq

namespace Level

def rank : Level → Nat
  | trace => 0
  | debug => 1
  | info => 2
  | warn => 3

def name : Level → String
  | trace => "TRACE"
  | debug => "DEBUG"
  | info => "INFO"
  | warn => "WARN"

def all : List Level := [trace, debug, info, warn]

/-- The level with a name, in any letter case. -/
def ofName? (s : String) : Option Level :=
  all.find? fun l => Text.lower l.name.toList == Text.lower s.toList

end Level

inductive Event
  | executing (pc : Word) (instr : Instr)
  | evaluated (pc : Word) (instr : Instr)
  | warned (pc : Word) (warning : Warning)
  | halted (pc : Word)
  | hitBreakpoint (pc : Word)
  | stoppedOnFault (pc : Word) (fault : Fault)
  | wasReset
  | wasCleared
  | read (block : Object.Block)

namespace Event

def level : Event → Level
  | executing _ _ | evaluated _ _ => .trace
  | wasReset | wasCleared | read _ => .debug
  | halted _ | hitBreakpoint _ | stoppedOnFault _ _ => .info
  | warned _ _ => .warn

/-- Whether an event is reported where nothing below `least` is. -/
def reaches (least : Level) (e : Event) : Bool :=
  least.rank ≤ e.level.rank

private def warningBody (pc : Word) : Warning → String
  | .divisionByZero => "division by zero, result is 0 pc=" ++ pc.hex
  | .storeSkipped a =>
    "write not allowed, skipped pc=" ++ pc.hex ++ " addr=" ++ a.hex ++ " region="
      ++ (Region.of a).name
  | .unknownOpcode word =>
    "unknown opcode, running as NOP pc=" ++ pc.hex ++ " word=" ++ word.hex

private def blockBody (block : Object.Block) : String :=
  match block with
  | .memory _ addr words =>
    "loaded block kind=" ++ block.kind.name ++ " addr=" ++ addr.hex ++ " count="
      ++ toString words.length
  | .symbol addr name => "loaded symbol addr=" ++ addr.hex ++ " name=" ++ name
  | .fileName name => "skipped file name block name=" ++ name
  | .line addr number _ =>
    "skipped line number block addr=" ++ addr.hex ++ " line=" ++ toString number.toNat

/-- The report without its level. -/
def body : Event → String
  | executing pc i => "execute pc=" ++ pc.hex ++ " instr=" ++ i.text
  | evaluated pc i => "eval pc=" ++ pc.hex ++ " instr=" ++ i.text
  | warned pc w => warningBody pc w
  | halted pc => "halted pc=" ++ pc.hex
  | hitBreakpoint pc => "hit breakpoint pc=" ++ pc.hex
  | stoppedOnFault pc f => "stopped on error pc=" ++ pc.hex ++ " error=" ++ f.message
  | wasReset => "machine reset"
  | wasCleared => "memory and metadata cleared"
  | read block => blockBody block

def text (e : Event) : String :=
  e.level.name ++ " " ++ e.body

end Event

namespace Machine

/-- The warning that an instruction raises at the program counter. -/
def warnings (m : Machine) (i : Instr) : List Event :=
  match m.effect i with
  | .ok e => e.warning.toList.map (.warned m.pc)
  | .error _ => []

/-- What is reported of the instruction that a step meets. -/
def stepEvents (m : Machine) : List Event :=
  if m.pc = haltAddr then []
  else match m.checkPc with
    | .ok () => .executing m.pc m.fetch :: m.warnings m.fetch
    | .error _ => []

/-- The events from `least` on of the next `k` steps, the last one first, in front of `acc`. -/
def replayOnto (least : Level) (acc : List Event) : Nat → Machine → List Event
  | 0, _ => acc
  | k + 1, m =>
    let acc := (m.stepEvents.filter (·.reaches least)).reverse ++ acc
    match m.step with
    | .next m => replayOnto least acc k m
    | .halt | .fault _ _ => acc

/-- How the end of a step or a run is reported. -/
def endEvents (o : Outcome) : List Event :=
  match o.fault, o.machine.pause with
  | some f, _ => o.machine.stepEvents ++ [.stoppedOnFault o.machine.pc f]
  | none, .halt => [.halted o.machine.pc]
  | none, .breakpoint => [.hitBreakpoint o.machine.pc]
  | none, .none => []

/-- The events from `least` on of a step or a run that took `m` to the outcome. -/
def runEvents (least : Level) (m : Machine) (o : Outcome) : List Event :=
  (replayOnto least [] o.steps m).reverse ++ (endEvents o).filter (·.reaches least)

def evalEvents (m : Machine) (i : Instr) (o : Outcome) : List Event :=
  match o.fault with
  | none => m.warnings i ++ [.evaluated o.machine.pc i]
  | some _ => []

def resetEvents : List Event := [.wasReset]

def clearEvents : List Event := [.wasReset, .wasCleared]

def loadFileEvents (f : ObjectFile) : List Event :=
  f.blocks.map .read

def loadBytesEvents (bytes : List UInt8) : List Event :=
  let c := Object.Contents.ofBytes bytes
  (c.blocks ++ (c.error.bind Object.ReadError.part?).toList).map .read

end Machine

end Lc4
