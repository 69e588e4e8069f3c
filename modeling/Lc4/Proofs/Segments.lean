import Lc4.Proofs.Stopping

/-!
# Runs in parts

A run may be cut after any of its instructions. What is left of it is a run too, which counts on
from there, under a condition that has to agree on the machines that it comes to and on no others.
It does not matter whether something that no step looks at is changed before a run or after it.
-/
namespace Lc4

namespace Outcome

/-- The outcome of what goes on after `k` instructions. -/
def later (k : Nat) (o : Outcome) : Outcome :=
  { o with steps := k + o.steps }

def map (g : Machine → Machine) (o : Outcome) : Outcome :=
  { o with machine := g o.machine }

end Outcome

namespace Machine

def StepResult.map (g : Machine → Machine) : StepResult → StepResult
  | next m => next (g m)
  | halt => halt
  | fault f left => fault f (g left)

/-- A change that steps do not look at and may come before or after all that they do. -/
structure Commutes (g : Machine → Machine) : Prop where
  core : ∀ m, (g m).core = m.core
  notes : ∀ m, (g m).notes = m.notes
  apply : ∀ m e, (g m).apply e = g (m.apply e)
  counted : ∀ m s, { g s with count := (g m).count + 1, status := .running } =
    g { s with count := m.count + 1, status := .running }
  paused : ∀ m k p, (g m).paused k p = (m.paused k p).map g
  faulted : ∀ m k f, (g m).faulted k f = (m.faulted k f).map g

namespace Commutes
variable {g : Machine → Machine} {go : Condition}

/-- One instruction, changed before or after. -/
theorem execute (commutes : Commutes g) (m : Machine) (i : Instr) :
    (g m).execute i = (m.execute i).map g := by
  rw [execute_eq, execute_eq, checkPc_congr (commutes.core m), effect_congr (commutes.core m)]
  cases m.checkPc with
  | error f => rfl
  | ok =>
    cases m.effect i with
    | error f => rfl
    | ok e => exact congrArg Except.ok (commutes.apply m e)

/-- The change goes through a step. -/
theorem step (commutes : Commutes g) (m : Machine) : (g m).step = m.step.map g := by
  rw [step_eq, step_eq, pc_congr (commutes.core m), fetch_congr (commutes.core m),
    commutes.execute]
  split
  · rfl
  · cases m.execute m.fetch with
    | error f => rfl
    | ok s => exact congrArg StepResult.next (commutes.counted m s)

/-- The change goes through a run whose condition does not see it, by induction on the fuel. -/
theorem runFrom (commutes : Commutes g) (blind : ∀ k s, go k (g s) = go k s)
    (fuel k : Nat) (m : Machine) :
    Machine.runFrom go fuel k (g m) = (Machine.runFrom go fuel k m).map (·.map g) := by
  induction fuel generalizing k m with
  | zero => rfl
  | succ fuel ih =>
    rw [Machine.runFrom, Machine.runFrom, blind, commutes.step]
    cases go k m with
    | false => exact congrArg some (commutes.paused m k .none)
    | true =>
      cases m.step with
      | halt => exact congrArg some (commutes.paused m k .halt)
      | fault f left => exact congrArg some (commutes.faulted left k f)
      | next s =>
        simp only [StepResult.map, commutes.notes, pc_congr (commutes.core s), if_true]
        split
        · exact congrArg some (commutes.paused s (k + 1) .breakpoint)
        · exact ih (k + 1) s

end Commutes

section Parts
variable {go other : Condition} {fuel k n : Nat} {m s : Machine}

/-- A run asks its condition on the machines that it comes to and on no others. -/
theorem runFrom_congr
    (agree : ∀ j < fuel, ∀ t, m.after j = some t → go (k + j) t = other (k + j) t) :
    runFrom go fuel k m = runFrom other fuel k m := by
  induction fuel generalizing k m with
  | zero => rfl
  | succ fuel ih =>
    have here : go k m = other k m := agree 0 (Nat.succ_pos fuel) m rfl
    rw [runFrom, runFrom, here]
    cases next : m.step with
    | halt | fault => rfl
    | next s =>
      have rest : runFrom go fuel (k + 1) s = runFrom other fuel (k + 1) s := by
        refine ih fun j hj t arrives => ?_
        have there : go (k + j + 1) t = other (k + j + 1) t :=
          agree (j + 1) (Nat.succ_lt_succ hj) t ((after_succ next).trans arrives)
        rwa [Nat.add_right_comm] at there
      simp only [rest]

/-- Where a run begins to count matters to its condition alone. -/
theorem runFrom_later (go : Condition) (fuel n k : Nat) (m : Machine) :
    runFrom go fuel (n + k) m = (runFrom (fun j => go (n + j)) fuel k m).map (·.later n) := by
  induction fuel generalizing k m with
  | zero => rfl
  | succ fuel ih =>
    rw [runFrom, runFrom]
    cases go (n + k) m with
    | false => rfl
    | true =>
      cases m.step with
      | halt | fault => rfl
      | next s =>
        simp only [if_true]
        split
        · rfl
        · exact ih (k + 1) s

/-- What is left of a run that is let pass on its first instructions. -/
theorem runFrom_of_passes (passes : Passes go k n m) (arrives : m.after n = some s)
    (fresh : n ≠ 0 → s.notes.isBreakpoint s.pc = false) (fuel : Nat) :
    runFrom go (n + fuel) k m = runFrom go fuel (k + n) s := by
  induction n generalizing k m with
  | zero =>
    obtain rfl := Option.some.inj arrives
    rw [Nat.zero_add, Nat.add_zero]
  | succ n ih =>
    obtain ⟨m', next, arrives⟩ := exists_next_of_after arrives
    obtain ⟨⟨on, -, -⟩, rest⟩ := (passes_succ_iff next).mp passes
    have miss : m'.notes.isBreakpoint m'.pc = false := by
      cases n with
      | zero =>
        obtain rfl := Option.some.inj arrives
        exact fresh (Nat.succ_ne_zero 0)
      | succ n =>
        obtain ⟨t, here, -, -, miss⟩ := rest 0 (Nat.succ_pos n)
        obtain rfl := Option.some.inj here
        exact miss (Nat.succ_ne_zero k)
    have whole : runFrom go (n + fuel + 1) k m = runFrom go (n + fuel) (k + 1) m' := by
      simp [runFrom, on, next, miss]
    rw [Nat.add_right_comm, whole, ih rest arrives fun _ => fresh (Nat.succ_ne_zero n),
      Nat.add_right_comm]
    rfl

end Parts

/-- The limit of a run may be measured by the distance that the count has moved, wherever it
started from, since no limit reaches as far as the count goes round. -/
theorem runWhile_count_eq_runLimit (m : Machine) {limit : BitVec 64} {fuel : Nat}
    (enough : limit.toNat < fuel) :
    m.runWhile (fun _ s => (s.count - m.count).ult limit) fuel = m.runLimit limit.toNat := by
  have limited : m.runWhile (fun _ s => (s.count - m.count).ult limit) (limit.toNat + 1) =
      m.runLimit limit.toNat := by
    unfold runLimit runWhile
    refine runFrom_congr fun j hj t arrives => ?_
    have moved : t.count = m.begin.count + BitVec.ofNat 64 j := count_after arrives
    have begun : m.begin.count = m.count := rfl
    have distance : (t.count - m.count).toNat = j := by
      rw [moved, begun, BitVec.add_comm, BitVec.add_sub_cancel, BitVec.toNat_ofNat]
      exact Nat.mod_eq_of_lt (Nat.lt_of_lt_of_le hj limit.isLt)
    rw [BitVec.ult, distance, Nat.zero_add]
  obtain ⟨o, ends⟩ := Option.ne_none_iff_exists'.mp (runLimit_ne_none limit.toNat m)
  obtain ⟨extra, rfl⟩ : ∃ extra, fuel = limit.toNat + 1 + extra :=
    ⟨fuel - (limit.toNat + 1), by omega⟩
  rw [ends] at limited ⊢
  exact runFrom_add limited extra

end Machine

end Lc4
