import Lc4.Machine.Load
import Lc4.Proofs.Flags

/-!
# Sessions

`Action` collects all that the user of a machine does with it: operations, which run instructions,
and what else changes its state. A session is a list of actions, carried out one after the other.
-/
namespace Lc4

/-- The three ways to write the status register by hand. -/
inductive StatusWrite
  | word (w : Word)
  | cond (byte : BitVec 8)
  | privilege (b : Bool)

def StatusWrite.perform (psr : Psr) : StatusWrite → Psr
  | word w => .ofWord w
  | cond byte => psr.setCond byte
  | privilege b => psr.setPrivileged b

inductive Action
  | operate (op : Operation)
  | reset
  | clear
  | loadBytes (bytes : List UInt8)
  | loadFile (f : ObjectFile)
  | setFlags (f : Flags)
  | writeStatus (write : StatusWrite)

/-- What one action of a session does. -/
structure Stage where
  action : Action
  start : Machine
  executed : List Executed
  /-- A run that its fuel does not finish has none. -/
  outcome : Option Outcome
  /-- What was wrong with the bytes that were loaded. -/
  readError : Option Object.ReadError

/-- The machine that a stage starts from, those before and after each instruction, and the last. -/
def Stage.machines (t : Stage) : List Machine :=
  t.start :: (t.executed.flatMap (fun x => [x.before, x.after]) ++
    (t.outcome.map (·.machine)).toList)

namespace Action

/-- The machine after an action, unless this is a run that its fuel does not finish. -/
def perform (fuel : Nat) (m : Machine) : Action → Option Machine
  | operate op => (op.perform fuel m).map (·.machine)
  | reset => some m.reset
  | clear => some m.clear
  | loadBytes bytes => some (m.loadBytes bytes).1
  | loadFile f => some (m.loadFile f)
  | setFlags f => some (m.withFlags f)
  | writeStatus write => some { m with psr := write.perform m.psr }

/-- The instructions that an action runs. -/
def executed (fuel : Nat) (m : Machine) : Action → List Executed
  | operate op => op.executed fuel m
  | _ => []

def outcome (fuel : Nat) (m : Machine) : Action → Option Outcome
  | operate op => op.perform fuel m
  | a => (a.perform fuel m).map fun s => ⟨s, 0, none⟩

def readError (m : Machine) : Action → Option Object.ReadError
  | loadBytes bytes => (m.loadBytes bytes).2
  | _ => none

def stage (fuel : Nat) (m : Machine) (a : Action) : Stage :=
  ⟨a, m, a.executed fuel m, a.outcome fuel m, a.readError m⟩

end Action

/-- The stages of a list of actions, up to a run that its fuel does not finish. -/
def Machine.session (fuel : Nat) : List Action → Machine → List Stage
  | [], _ => []
  | a :: rest, m =>
    a.stage fuel m :: match a.outcome fuel m with
      | none => []
      | some o => session fuel rest o.machine

namespace Machine

/-- Every stage of a session carries an action out on a machine of which holds what actions keep. -/
theorem session_invariant {I : Machine → Prop} {fuel : Nat} {actions : List Action} {m : Machine}
    (start : I m) (kept : ∀ a s o, I s → Action.outcome fuel s a = some o → I o.machine) :
    ∀ t ∈ m.session fuel actions, I t.start ∧ t = t.action.stage fuel t.start := by
  induction actions generalizing m with
  | nil =>
    intro t ht
    cases ht
  | cons a rest ih =>
    intro t ht
    rcases List.mem_cons.mp ht with rfl | ht
    · exact ⟨start, rfl⟩
    · cases h : a.outcome fuel m with
      | none => simp [h] at ht
      | some o =>
        rw [h] at ht
        exact ih (kept a m o start h) t ht

/-- What is left of a session is a session. -/
theorem session_of_append {fuel : Nat} {actions : List Action} {m : Machine}
    {earlier later : List Stage} (h : m.session fuel actions = earlier ++ later) :
    ∃ actions' s, later = session fuel actions' s := by
  induction earlier generalizing actions m with
  | nil => exact ⟨actions, m, h.symm⟩
  | cons t earlier ih =>
    cases actions with
    | nil => cases h
    | cons a rest =>
      obtain ⟨-, tail⟩ := List.cons.inj h
      cases ended : a.outcome fuel m with
      | some o =>
        rw [ended] at tail
        exact ih tail
      | none =>
        rw [ended] at tail
        obtain ⟨-, rfl⟩ := List.append_eq_nil_iff.mp tail.symm
        exact ⟨[], m, rfl⟩

end Machine

end Lc4
