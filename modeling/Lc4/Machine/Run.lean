import Lc4.Machine.Step

/-!
# Runs

A run takes steps while a condition holds. The condition sees how many instructions the run has
executed and the machine, and is asked before every step. A run also ends where the machine halts,
at a fault, and when a step arrives at a breakpoint; so a run that starts on a breakpoint leaves
it. A run may go on for ever: it is given fuel, and `none` says that the fuel did not last.
-/
namespace Lc4.Machine

abbrev Condition := Nat → Machine → Bool

/-- Goes on after `k` instructions. -/
def runFrom (go : Condition) : (fuel : Nat) → (k : Nat) → Machine → Option Outcome
  | 0, _, _ => none
  | fuel + 1, k, m =>
    if go k m then
      match m.step with
      | .halt => some (m.paused k .halt)
      | .fault f left => some (left.faulted k f)
      | .next m =>
        if m.notes.isBreakpoint m.pc then some (m.paused (k + 1) .breakpoint)
        else runFrom go fuel (k + 1) m
    else some (m.paused k .none)

def runWhile (go : Condition) (fuel : Nat) (m : Machine) : Option Outcome :=
  runFrom go fuel 0 m.begin

def run (fuel : Nat) (m : Machine) : Option Outcome :=
  runWhile (fun _ _ => true) fuel m

/-- Runs at most `n` instructions, for which the fuel always lasts. -/
def runLimit (n : Nat) (m : Machine) : Option Outcome :=
  runWhile (fun k _ => k < n) (n + 1) m

/-- Runs until the program counter is one past where it is now. -/
def stepNext (fuel : Nat) (m : Machine) : Option Outcome :=
  runWhile (fun k s => k == 0 || s.pc != m.pc + 1) fuel m

/-- Runs one instruction and, if it is a call, on until the call has returned. -/
def stepOver (fuel : Nat) (m : Machine) : Option Outcome :=
  runWhile (fun k s => k == 0 || m.calls.depth < s.calls.depth) fuel m

/-- Runs until the current call has returned; outside of calls there is nothing to do. -/
def stepOut (fuel : Nat) (m : Machine) : Option Outcome :=
  if m.calls.isEmpty then some ⟨m.begin, 0, none⟩
  else runWhile (fun k s => k == 0 || m.calls.depth ≤ s.calls.depth) fuel m

/-- More fuel does not change how a run ends. -/
theorem runFrom_add {go : Condition} {fuel k : Nat} {m : Machine} {o : Outcome}
    (h : runFrom go fuel k m = some o) (extra : Nat) :
    runFrom go (fuel + extra) k m = some o := by
  induction fuel generalizing k m with
  | zero => simp [runFrom] at h
  | succ fuel ih =>
    rw [show fuel + 1 + extra = fuel + extra + 1 by omega]
    rw [runFrom] at h ⊢
    by_cases hg : go k m
    · simp only [hg, if_true] at h ⊢
      cases hs : m.step with
      | halt => simpa [hs] using h
      | fault f left => simpa [hs] using h
      | next m' =>
        by_cases hb : m'.notes.isBreakpoint m'.pc
        · simpa [hs, hb] using h
        · simp only [hs, hb] at h ⊢
          exact ih h
    · simpa [hg] using h

end Lc4.Machine
