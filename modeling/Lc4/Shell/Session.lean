import Lc4.Machine.Load
import Lc4.Machine.Log
import Lc4.Shell.Listing

/-!
# Sessions

A shell carries out commands on a machine and answers with text. Only `load` and the commands that
run instructions change more than breakpoints. A command that lets the machine run may never end:
`none` says that the shell's fuel did not last.
-/
namespace Lc4

namespace Shell

inductive Flow
  | continue
  | quit
deriving DecidableEq

structure Reply where
  machine : Machine
  output : String
  flow : Flow

end Shell

/-- What a shell works with besides the machine. -/
structure Shell where
  readFile : ReadFile
  fuel : Nat
  coloured : Bool

namespace Shell

/-- The machine that a motion starts from. -/
def Motion.start (m : Machine) : Motion → Machine
  | .run => m.reset
  | .resume | .step _ | .next | .over | .finish => m

/-- Runs the machine that a motion starts from. -/
def Motion.perform (fuel : Nat) (m : Machine) : Motion → Option Outcome
  | .run | .resume => m.run fuel
  | .step n => m.runLimit n.toNat
  | .next => m.stepNext fuel
  | .over => m.stepOver fuel
  | .finish => m.stepOut fuel

/-- Clears the machine and loads the file that a path leads to. -/
def load (sh : Shell) (m : Machine) (path : String) : Reply :=
  let m := m.clear
  match sh.readFile path with
  | .error e => ⟨m, Listing.loadError sh.coloured (.unreadable path e), .continue⟩
  | .ok bytes =>
    match m.loadBytes bytes with
    | (m, none) => ⟨m, Listing.line ("Loaded " ++ path), .continue⟩
    | (m, some e) => ⟨m, Listing.loadError sh.coloured (.malformed e), .continue⟩

/-- Carries out a motion, unless it takes more fuel than the shell has. -/
def move (sh : Shell) (m : Machine) (motion : Motion) : Option Reply :=
  (motion.perform sh.fuel (motion.start m)).map fun o =>
    ⟨o.machine, Listing.stop sh.coloured o, .continue⟩

def execute (sh : Shell) (m : Machine) : Command → Option Reply
  | .load path => some (sh.load m path)
  | .move motion => sh.move m motion
  | .breakpoint location =>
    match location.resolve m.labels with
    | .ok a =>
      some ⟨m.setBreakpoint a, Listing.line ("Breakpoint set at " ++ Listing.address a), .continue⟩
    | .error e => some ⟨m, Listing.commandError sh.coloured e, .continue⟩
  | .delete location =>
    match location.resolve m.labels with
    | .ok a =>
      let had := (m.notes.takeBreakpoint a).1
      let text := if had then "Breakpoint deleted at " else "No breakpoint at "
      some ⟨m.removeBreakpoint a, Listing.line (text ++ Listing.address a), .continue⟩
    | .error e => some ⟨m, Listing.commandError sh.coloured e, .continue⟩
  | .breakpoints => some ⟨m, Listing.breakpoints m.notes, .continue⟩
  | .print target => some ⟨m, Listing.target sh.coloured m target, .continue⟩
  | .eval a =>
    match a.resolve m.labels m.mem with
    | .ok i =>
      let o := m.eval i
      some ⟨o.machine, (o.fault.map (Listing.fault sh.coloured)).getD "", .continue⟩
    | .error e => some ⟨m, Listing.commandError sh.coloured e, .continue⟩
  | .reset => some ⟨m.reset, "", .continue⟩
  | .clear => some ⟨m.clear, "", .continue⟩
  | .help => some ⟨m, Listing.help, .continue⟩
  | .quit => some ⟨m, "", .quit⟩

/-- Reads and carries out one line. -/
def executeLine (sh : Shell) (m : Machine) (text : String) : Option Reply :=
  match Command.parse text with
  | .ok (some c) => sh.execute m c
  | .ok none => some ⟨m, "", .continue⟩
  | .error e => some ⟨m, Listing.commandError sh.coloured e, .continue⟩

/-- What happens on the machine while a command is carried out; of a run, the events from `least`
on. -/
def events (sh : Shell) (least : Level) (m : Machine) : Command → List Event
  | .load path =>
    Machine.clearEvents ++
      match sh.readFile path with
      | .ok bytes => Machine.loadBytesEvents bytes
      | .error _ => []
  | .move motion =>
    (if motion = .run then Machine.resetEvents else []) ++
      match motion.perform sh.fuel (motion.start m) with
      | some o => (motion.start m).runEvents least o
      | none => []
  | .eval a =>
    match a.resolve m.labels m.mem with
    | .ok i => m.evalEvents i (m.eval i)
    | .error _ => []
  | .reset => Machine.resetEvents
  | .clear => Machine.clearEvents
  | .breakpoint _ | .delete _ | .breakpoints | .print _ | .help | .quit => []

/-- The events from `least` on while a line is carried out. -/
def lineEvents (sh : Shell) (least : Level) (m : Machine) (text : String) : List Event :=
  match Command.parse text with
  | .ok (some c) => (sh.events least m c).filter (·.reaches least)
  | .ok none | .error _ => []

end Shell

end Lc4
