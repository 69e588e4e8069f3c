import Lc4.Proofs.Run

/-!
# Where runs stop

A run goes on as long as no cause to stop applies, and it ends exactly if one does at last. Of
several causes the first counts: a breakpoint that a step has reached, the condition, the halt
address, a fault.
-/
namespace Lc4

inductive StopCause
  | breakpoint
  | condition
  | halt
  | fault (f : Fault)
deriving DecidableEq

namespace StopCause

def pause : StopCause → Pause
  | breakpoint => .breakpoint
  | halt => .halt
  | condition | fault _ => .none

/-- The status after a run that had this status where it stopped. -/
def status (old : RunStatus) : StopCause → RunStatus
  | halt | fault _ => .halted
  | breakpoint | condition => old

def fault? : StopCause → Option Fault
  | fault f => some f
  | breakpoint | condition | halt => none

/-- The outcome of a run that stops at a machine after `k` instructions. -/
def outcome (k : Nat) (s : Machine) (c : StopCause) : Outcome :=
  ⟨{ s with pause := c.pause, status := c.status s.status }, k, c.fault?⟩

end StopCause

/-- The operation neither met a fault nor was paused. Such a run ends for its condition. -/
structure Outcome.Completed (o : Outcome) : Prop where
  fault : o.fault = none
  breakpoint : o.machine.hitBreakpoint = false
  halt : o.machine.hitHalt = false

theorem Machine.pause_eq_none_iff {m : Machine} :
    m.pause = .none ↔ m.hitBreakpoint = false ∧ m.hitHalt = false := by
  rw [hitBreakpoint, hitHalt]
  cases m.pause <;> decide

theorem Outcome.completed_iff {o : Outcome} :
    o.Completed ↔ o.fault = none ∧ o.machine.pause = .none := by
  rw [Machine.pause_eq_none_iff]
  exact ⟨fun ⟨fault, breakpoint, halt⟩ => ⟨fault, breakpoint, halt⟩,
    fun ⟨fault, breakpoint, halt⟩ => ⟨fault, breakpoint, halt⟩⟩

namespace Machine

/-- The cause for which a run that is at `m` after `k` instructions stops, if there is one. -/
def stopCause? (go : Condition) (k : Nat) (m : Machine) : Option StopCause :=
  if k ≠ 0 ∧ m.notes.isBreakpoint m.pc = true then some .breakpoint
  else if go k m = false then some .condition
  else if m.pc = haltAddr then some .halt
  else match m.execute m.fetch with
    | .error f => some (.fault f)
    | .ok _ => none

/-- A run that is at `m` after `k` instructions is let pass before each of the next `n` ones. -/
def Passes (go : Condition) (k n : Nat) (m : Machine) : Prop :=
  ∀ j < n, ∃ t, m.after j = some t ∧ go (k + j) t = true ∧ t.pc ≠ haltAddr ∧
    (k + j ≠ 0 → t.notes.isBreakpoint t.pc = false)

section Stop
variable {go : Condition} {k n : Nat} {m m' : Machine} {o : Outcome} {c : StopCause}

theorem passes_succ_iff (h : m.step = .next m') : Passes go k (n + 1) m ↔
    (go k m = true ∧ m.pc ≠ haltAddr ∧ (k ≠ 0 → m.notes.isBreakpoint m.pc = false)) ∧
      Passes go (k + 1) n m' := by
  constructor
  · intro passes
    constructor
    · obtain ⟨t, arrives, here⟩ := passes 0 (Nat.succ_pos n)
      obtain rfl := Option.some.inj arrives
      exact here
    · intro j hj
      obtain ⟨t, arrives, there⟩ := passes (j + 1) (Nat.succ_lt_succ hj)
      rw [after_succ h] at arrives
      rw [Nat.add_right_comm]
      exact ⟨t, arrives, there⟩
  · rintro ⟨here, passes⟩ (_ | j) hj
    · exact ⟨m, rfl, here⟩
    · obtain ⟨t, arrives, there⟩ := passes j (Nat.lt_of_succ_lt_succ hj)
      rw [Nat.add_right_comm] at there
      exact ⟨t, (after_succ h).trans arrives, there⟩

/-- Where no breakpoint was reached by a step, the other causes are asked for in their order. -/
theorem stopCause?_of_fresh (fresh : k ≠ 0 → m.notes.isBreakpoint m.pc = false) :
    stopCause? go k m =
      if go k m = false then some .condition
      else match m.step with
        | .halt => some .halt
        | .fault f _ => some (.fault f)
        | .next _ => none := by
  have none : ¬ (k ≠ 0 ∧ m.notes.isBreakpoint m.pc = true) := by
    rintro ⟨moved, hit⟩
    rw [fresh moved] at hit
    cases hit
  rw [stopCause?, if_neg none, step_eq]
  by_cases off : go k m = false
  · rw [if_pos off, if_pos off]
  · rw [if_neg off, if_neg off]
    by_cases halted : m.pc = haltAddr
    · rw [if_pos halted, if_pos halted]
    · rw [if_neg halted, if_neg halted]
      cases m.execute m.fetch <;> rfl

theorem off_of_stopCause? (h : stopCause? go k m = some .condition) : go k m = false := by
  unfold stopCause? at h
  repeat' split at h
  all_goals simp_all

theorem fresh_of_stopCause? (h : stopCause? go k m = some c) (other : c ≠ .breakpoint) :
    k ≠ 0 → m.notes.isBreakpoint m.pc = false := by
  intro moved
  cases hit : m.notes.isBreakpoint m.pc with
  | false => rfl
  | true =>
    rw [stopCause?, if_pos ⟨moved, hit⟩] at h
    exact absurd (Option.some.inj h).symm other

theorem marked_of_stopCause? (h : stopCause? go k m = some .breakpoint) :
    k ≠ 0 ∧ m.notes.isBreakpoint m.pc = true := by
  unfold stopCause? at h
  repeat' split at h
  all_goals simp_all

/-- Enough fuel for a run is one unit for each step and one for its end. -/
theorem exists_runFrom_of_ends (ends : Ends go k m o) : ∃ fuel, runFrom go fuel k m = some o := by
  induction ends with
  | condition off => exact ⟨1, by simp [runFrom, off]⟩
  | halt on h => exact ⟨1, by simp [runFrom, on, h]⟩
  | fault on h => exact ⟨1, by simp [runFrom, on, h]⟩
  | breakpoint on h hit => exact ⟨1, by simp [runFrom, on, h, hit]⟩
  | next on h miss _ ih =>
    obtain ⟨fuel, rest⟩ := ih
    exact ⟨fuel + 1, by simp [runFrom, on, h, miss, rest]⟩

/-- The rules say when a run ends: with enough fuel the loop finds that end, and no other. -/
theorem exists_runFrom_iff : (∃ fuel, runFrom go fuel k m = some o) ↔ Ends go k m o := by
  constructor
  · rintro ⟨fuel, h⟩
    exact ends_of_runFrom h
  · exact exists_runFrom_of_ends

/-- From the rules to the first machine on which a cause applies, by induction on how the run ends.
-/
theorem stops_of_ends (ends : Ends go k m o)
    (fresh : k ≠ 0 → m.notes.isBreakpoint m.pc = false) :
    ∃ n s c, m.after n = some s ∧ Passes go k n m ∧ stopCause? go (k + n) s = some c ∧
      o = c.outcome (k + n) s := by
  induction ends with
  | @condition k m off =>
    refine ⟨0, m, .condition, rfl, nofun, ?_, rfl⟩
    rw [Nat.add_zero, stopCause?_of_fresh fresh, if_pos off]
  | @halt k m on h =>
    refine ⟨0, m, .halt, rfl, nofun, ?_, rfl⟩
    rw [Nat.add_zero, stopCause?_of_fresh fresh, h, on]
    rfl
  | @fault k m f on h =>
    refine ⟨0, m, .fault f, rfl, nofun, ?_, rfl⟩
    rw [Nat.add_zero, stopCause?_of_fresh fresh, h, on]
    rfl
  | @breakpoint k m s on h hit =>
    have awake : m.pc ≠ haltAddr := (step_eq_next_iff.mp h).1
    refine ⟨1, s, .breakpoint, after_succ h, ?_, if_pos ⟨Nat.succ_ne_zero k, hit⟩, rfl⟩
    exact (passes_succ_iff h).mpr ⟨⟨on, awake, fresh⟩, nofun⟩
  | @next k m s o on h miss _ ih =>
    have awake : m.pc ≠ haltAddr := (step_eq_next_iff.mp h).1
    obtain ⟨n, t, c, arrives, passes, cause, outcome⟩ := ih fun _ => miss
    rw [Nat.add_right_comm] at cause outcome
    exact ⟨n + 1, t, c, (after_succ h).trans arrives,
      (passes_succ_iff h).mpr ⟨⟨on, awake, fresh⟩, passes⟩, cause, outcome⟩

/-- From the first machine on which a cause applies back to the rules, by induction on the steps
that lead there. -/
theorem ends_of_stops {s : Machine} {c : StopCause} (arrives : m.after n = some s)
    (passes : Passes go k n m) (cause : stopCause? go (k + n) s = some c)
    (fresh : k ≠ 0 → m.notes.isBreakpoint m.pc = false) : Ends go k m (c.outcome (k + n) s) := by
  induction n generalizing k m with
  | zero =>
    obtain rfl := Option.some.inj arrives
    rw [Nat.add_zero, stopCause?_of_fresh fresh] at cause
    by_cases off : go k m = false
    · rw [if_pos off] at cause
      obtain rfl := Option.some.inj cause
      exact .condition off
    · rw [if_neg off] at cause
      have on : go k m = true := by simpa using off
      cases h : m.step with
      | halt =>
        rw [h] at cause
        obtain rfl := Option.some.inj cause
        exact .halt on h
      | fault f left =>
        obtain rfl := eq_of_step_fault h
        rw [h] at cause
        obtain rfl := Option.some.inj cause
        exact .fault on h
      | next m' =>
        rw [h] at cause
        cases cause
  | succ n ih =>
    obtain ⟨m', h, arrives⟩ := exists_next_of_after arrives
    obtain ⟨⟨on, -, -⟩, rest⟩ := (passes_succ_iff h).mp passes
    by_cases hit : m'.notes.isBreakpoint m'.pc = true
    -- A breakpoint further back would have been a cause there, so this is the last machine.
    · cases n with
      | zero =>
        obtain rfl := Option.some.inj arrives
        have first : stopCause? go (k + 1) m' = some .breakpoint :=
          if_pos ⟨Nat.succ_ne_zero k, hit⟩
        obtain rfl := Option.some.inj (first.symm.trans cause)
        exact .breakpoint on h hit
      | succ n =>
        obtain ⟨t, there, -, -, miss⟩ := rest 0 (Nat.succ_pos n)
        obtain rfl := Option.some.inj there
        rw [miss (Nat.succ_ne_zero k)] at hit
        cases hit
    · have miss : m'.notes.isBreakpoint m'.pc = false := by simpa using hit
      have shift : k + (n + 1) = k + 1 + n := by omega
      rw [shift] at cause ⊢
      exact .next on h miss (ih arrives rest cause fun _ => miss)

/-- Steps in a row are counted, modulo the width of the counter. -/
theorem count_after {s : Machine} (h : m.after n = some s) :
    s.count = m.count + BitVec.ofNat 64 n := by
  induction n generalizing m with
  | zero =>
    obtain rfl := Option.some.inj h
    exact (BitVec.add_zero m.count).symm
  | succ n ih =>
    obtain ⟨m', hs, rest⟩ := exists_next_of_after h
    have counted : m'.count = m.count + 1 := congrArg Ledger.count (ledger_step hs)
    rw [ih rest, counted, BitVec.add_assoc, Nat.add_comm n, ← BitVec.ofNat_add_ofNat]
    rfl

end Stop

/-- The run from `m` takes its steps unhindered to `s`, where it stops for this cause. -/
structure Stops (go : Condition) (m s : Machine) (c : StopCause) (o : Outcome) : Prop where
  arrives : m.after o.steps = some s
  passes : Passes go 0 o.steps m
  cause : stopCause? go o.steps s = some c
  left : o = c.outcome o.steps s

/-- A run is complete exactly if its condition ended it. -/
theorem Stops.completed_iff {go : Condition} {m s : Machine} {c : StopCause} {o : Outcome}
    (stops : Stops go m s c o) : o.Completed ↔ c = .condition := by
  rw [stops.left]
  constructor
  · rintro ⟨fault, breakpoint, halt⟩
    cases c with
    | condition => rfl
    | breakpoint => cases breakpoint
    | halt => cases halt
    | fault f => cases fault
  · rintro rfl
    exact ⟨rfl, rfl, rfl⟩

/-- A run returns exactly if a cause to stop applies at last. -/
theorem exists_runWhile_iff {go : Condition} {m : Machine} {o : Outcome} :
    (∃ fuel, m.runWhile go fuel = some o) ↔ ∃ s c, Stops go m.begin s c o := by
  have fresh : 0 ≠ 0 → m.begin.notes.isBreakpoint m.begin.pc = false := fun h => absurd rfl h
  constructor
  · intro returns
    obtain ⟨n, s, c, arrives, passes, cause, rfl⟩ :=
      stops_of_ends (exists_runFrom_iff.mp returns) fresh
    rw [Nat.zero_add] at cause ⊢
    exact ⟨s, c, arrives, passes, cause, rfl⟩
  · rintro ⟨s, c, arrives, passes, cause, left⟩
    rw [← Nat.zero_add o.steps] at cause left
    rw [left]
    exact exists_runFrom_iff.mpr (ends_of_stops arrives passes cause fresh)

/-- A run returns exactly if it comes, by steps before which it is let pass, to a machine where
there is a cause to stop; it leaves this machine, with the pause and the status of the cause. So
it does not return if there never is one. -/
theorem runWhile_stops (go : Condition) (m : Machine) :
    (∀ o, (∃ fuel, m.runWhile go fuel = some o) ↔ ∃ s c, Stops go m.begin s c o) ∧
    (∀ s c o, Stops go m.begin s c o →
      o.machine.count = m.count + BitVec.ofNat 64 o.steps ∧
      (o.machine.hitBreakpoint = true ↔ c = .breakpoint) ∧
      (o.machine.hitHalt = true ↔ c = .halt)) ∧
    ((∀ k s, m.begin.after k = some s → stopCause? go k s = none) →
      ∀ fuel, m.runWhile go fuel = none) := by
  refine ⟨fun o => exists_runWhile_iff, ?_, ?_⟩
  · intro s c o stops
    have counted : s.count = m.begin.count + BitVec.ofNat 64 o.steps :=
      count_after stops.arrives
    rw [stops.left]
    refine ⟨counted, ?_, ?_⟩
    · cases c <;> simp [StopCause.outcome, StopCause.pause, hitBreakpoint]
    · cases c <;> simp [StopCause.outcome, StopCause.pause, hitHalt]
  · intro never fuel
    cases returns : m.runWhile go fuel with
    | none => rfl
    | some o =>
      obtain ⟨s, c, stops⟩ := exists_runWhile_iff.mp ⟨fuel, returns⟩
      have none := never o.steps s stops.arrives
      rw [stops.cause] at none
      cases none

/-- What a step brings back to the core it had stays there for ever. -/
theorem core_after_of_round {m m' t s : Machine} {k : Nat} (round : m.step = .next m')
    (same : m'.core = m.core) (core : t.core = m.core) (arrives : t.after k = some s) :
    s.core = m.core ∧ s.notes = t.notes := by
  refine after_invariant (I := fun u => u.core = m.core ∧ u.notes = t.notes) ?_ arrives ⟨core, rfl⟩
  rintro u u' next ⟨core, notes⟩
  obtain ⟨v, next', core'⟩ := step_congr core round
  obtain rfl := StepResult.next.inj (next'.symm.trans next)
  have kept : v.notes = u.notes := congrArg Ledger.notes (ledger_step next)
  exact ⟨core'.trans same, kept.trans notes⟩

/-- A branch to itself stops after each round at a breakpoint on it, and never without one. -/
theorem runWhile_stops_round :
    let go : Condition := fun _ _ => true
    let m := { new .none with mem := Memory.zero.set 0x8200 0x0FFF }
    let marked := m.setBreakpoint 0x8200
    (∃ o s c, marked.runWhile go 1 = some o ∧ Stops go marked.begin s c o ∧ o.steps = 1 ∧
      o.machine.hitBreakpoint = true ∧ c = .breakpoint) ∧
    (∀ k s, m.begin.after k = some s → stopCause? go k s = none) ∧
      ∀ fuel, m.runWhile go fuel = none := by
  intro go m marked
  constructor
  · obtain ⟨returns, causes, -⟩ := runWhile_stops go marked
    have seen : (marked.runWhile go 1).map (fun o => (o.steps, o.machine.hitBreakpoint)) =
        some (1, true) := by decide +kernel
    obtain ⟨o, ends, same⟩ := Option.map_eq_some_iff.mp seen
    obtain ⟨one, hit⟩ := Prod.mk.inj same
    obtain ⟨s, c, stops⟩ := (returns o).mp ⟨1, ends⟩
    exact ⟨o, s, c, ends, stops, one, hit, (causes s c o stops).2.1.mp hit⟩
  · have round : m.begin.step = .next { m.begin with count := 1, status := .running } := by
      subst m
      rfl
    have never : ∀ k s, m.begin.after k = some s → stopCause? go k s = none := by
      intro k s arrives
      obtain ⟨core, notes⟩ := core_after_of_round round rfl rfl arrives
      obtain ⟨t, next, -⟩ := step_congr core round
      rw [stopCause?_of_fresh, next]
      · rfl
      · intro _
        rw [notes]
        exact Notes.isBreakpoint_empty s.pc
    exact ⟨never, (runWhile_stops go m).2.2 never⟩

end Machine

end Lc4
